import MoneroOxide.Lib.Pratt

/-!
# The order of the prime-order subgroup

The scalars of Ed25519 are the integers modulo `ℓ = 2 ^ 252 + 27742317777372353535851937790883648493`. Here `ℓ` is shown to be
prime, so that they form a field: the code inverts challenges, and a non-zero scalar times a point other than the identity is
not the identity.
-/

namespace MoneroOxide

/-- The order of the prime-order subgroup of Ed25519. -/
def ℓ : ℕ := 2 ^ 252 + 27742317777372353535851937790883648493

/-- The certificates of `ℓ`, which is the last, and of the factors it takes. -/
def ℓCertificate : List Pratt.Entry := [
  ⟨34123, 2, [(2, 1), (3, 1), (11, 2), (47, 1)]⟩,
  ⟨409477, 2, [(2, 2), (3, 1), (34123, 1)]⟩,
  ⟨14741173, 2, [(2, 2), (3, 2), (409477, 1)]⟩,
  ⟨58964693, 2, [(2, 2), (14741173, 1)]⟩,
  ⟨30703, 3, [(2, 1), (3, 1), (7, 1), (17, 1), (43, 1)]⟩,
  ⟨41081, 3, [(2, 3), (5, 1), (13, 1), (79, 1)]⟩,
  ⟨82163, 2, [(2, 1), (41081, 1)]⟩,
  ⟨22111, 6, [(2, 1), (3, 1), (5, 1), (11, 1), (67, 1)]⟩,
  ⟨132667, 5, [(2, 1), (3, 1), (22111, 1)]⟩,
  ⟨1723, 3, [(2, 1), (3, 1), (7, 1), (41, 1)]⟩,
  ⟨17231, 13, [(2, 1), (5, 1), (1723, 1)]⟩,
  ⟨137849, 3, [(2, 3), (17231, 1)]⟩,
  ⟨3044861653679985063343, 5, [(2, 1), (3, 1), (11, 1), (30703, 1), (82163, 1), (132667, 1), (137849, 1)]⟩,
  ⟨198211423230930754013084525763697, 5, [(2, 4), (3, 1), (23, 1), (58964693, 1), (3044861653679985063343, 1)]⟩,
  ⟨2939, 2, [(2, 1), (13, 1), (113, 1)]⟩,
  ⟨5879, 11, [(2, 1), (2939, 1)]⟩,
  ⟨292386187, 2, [(2, 1), (3, 4), (307, 1), (5879, 1)]⟩,
  ⟨213441916511, 13, [(2, 1), (5, 1), (73, 1), (292386187, 1)]⟩,
  ⟨1361, 3, [(2, 4), (5, 1), (17, 1)]⟩,
  ⟨2851, 2, [(2, 1), (3, 1), (5, 2), (19, 1)]⟩,
  ⟨3797, 2, [(2, 2), (13, 1), (73, 1)]⟩,
  ⟨531581, 2, [(2, 2), (5, 1), (7, 1), (3797, 1)]⟩,
  ⟨2551, 6, [(2, 1), (3, 1), (5, 2), (17, 1)]⟩,
  ⟨1224481, 13, [(2, 5), (3, 1), (5, 1), (2551, 1)]⟩,
  ⟨1257559732178653, 2, [(2, 2), (3, 1), (7, 1), (23, 1), (531581, 1), (1224481, 1)]⟩,
  ⟨4434155615661930479, 17, [(2, 1), (41, 1), (43, 1), (1257559732178653, 1)]⟩,
  ⟨172054593956031949258510691, 2, [(2, 1), (5, 1), (1361, 1), (2851, 1), (4434155615661930479, 1)]⟩,
  ⟨19757330305831588566944191468367130476339, 2, [(2, 1), (269, 1), (213441916511, 1), (172054593956031949258510691, 1)]⟩,
  ⟨276602624281642239937218680557139826668747, 2, [(2, 1), (7, 1), (19757330305831588566944191468367130476339, 1)]⟩,
  ⟨7237005577332262213973186563042994240857116359379907606001950938285454250989, 2, [(2, 2), (3, 1), (11, 1),
    (198211423230930754013084525763697, 1), (276602624281642239937218680557139826668747, 1)]⟩]

/-- `ℓ` is prime. -/
theorem prime_ℓ : Nat.Prime ℓ := by
  have hmem : ∃ e ∈ ℓCertificate, e.p = ℓ := ⟨_, List.getLast_mem (by simp [ℓCertificate]), rfl⟩
  obtain ⟨e, he, hp⟩ := hmem
  rw [← hp]
  exact Pratt.prime_of_checkChain (by simp) (by decide +kernel : Pratt.checkChain [] ℓCertificate = true) e he

instance : Fact (Nat.Prime ℓ) := ⟨prime_ℓ⟩

end MoneroOxide
