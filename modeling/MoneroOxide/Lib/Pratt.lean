import Mathlib.NumberTheory.LucasPrimality
import Mathlib.Data.List.Prime

/-!
# Primality certificates

Lucas's test certifies `p` by a number whose powers tell the divisors of `p - 1` apart, and the prime factors of `p - 1`. The
test is stated here over a computation on numbers (`powMod`, square and multiply), so that the kernel can run it on primes of a
few hundred bits. The factors are certified in the same way, or by trial division when they are small: a certificate is a chain
of such tests, checked as a whole.
-/

namespace Pratt

/-- `a ^ e % m`, squaring once for each of the `k` low bits of the exponent `e`. -/
def powMod (m : ℕ) : ℕ → ℕ → ℕ → ℕ
  | 0, _, _ => 1 % m
  | k + 1, a, e => (if e % 2 = 0 then 1 else a) * powMod m k (a * a % m) (e / 2) % m

theorem powMod_eq (m k a e : ℕ) (h : e < 2 ^ k) : powMod m k a e = a ^ e % m := by
  induction k generalizing a e with
  | zero =>
    have he : e = 0 := by simpa using h
    simp [powMod, he]
  | succ k ih =>
    have he : e / 2 < 2 ^ k := by
      rw [pow_succ] at h
      omega
    have hsq : (a * a % m) ^ (e / 2) ≡ a ^ (2 * (e / 2)) [MOD m] := by
      rw [pow_mul, pow_two]
      exact (Nat.mod_modEq _ _).pow _
    have hmul : ∀ c : ℕ, c * ((a * a % m) ^ (e / 2) % m) ≡ c * a ^ (2 * (e / 2)) [MOD m] := fun c =>
      ((Nat.mod_modEq _ _).trans hsq).mul_left c
    rw [powMod, ih _ _ he]
    split
    · rename_i h0
      have he2 : 2 * (e / 2) = e := by omega
      have := hmul 1
      rw [he2, one_mul (a ^ e)] at this
      exact this
    · rename_i h0
      have he2 : e = 2 * (e / 2) + 1 := by omega
      have := hmul a
      rw [← pow_succ', ← he2] at this
      exact this

/-- A power is one in `ZMod p` when its remainder by `p` is one. -/
theorem pow_eq_one_iff {p : ℕ} (hp : 2 ≤ p) (a e : ℕ) : (a : ZMod p) ^ e = 1 ↔ a ^ e % p = 1 := by
  have h1 : 1 % p = 1 := Nat.mod_eq_of_lt hp
  rw [← Nat.cast_pow, ← Nat.cast_one, ZMod.natCast_eq_natCast_iff', h1]

/-- A prime factor of a product of powers of primes is one of these primes. -/
theorem exists_factor {fs : List (ℕ × ℕ)} (hfs : ∀ f ∈ fs, f.1.Prime) {q : ℕ} (hq : q.Prime)
    (h : q ∣ (fs.map fun f => f.1 ^ f.2).prod) : ∃ f ∈ fs, q = f.1 := by
  obtain ⟨x, hx, hqx⟩ := (Prime.dvd_prod_iff hq.prime).1 h
  obtain ⟨f, hf, rfl⟩ := List.mem_map.1 hx
  exact ⟨f, hf, (Nat.prime_dvd_prime_iff_eq hq (hfs f hf)).1 (hq.dvd_of_dvd_pow hqx)⟩

/-- Lucas's test: `a` has order `p - 1` modulo `p`, as its powers by `p - 1` over each prime factor of `p - 1` show. -/
theorem prime_of_lucas (k p a : ℕ) (fs : List (ℕ × ℕ)) (hp : 2 ≤ p) (hk : p ≤ 2 ^ k) (hfs : ∀ f ∈ fs, f.1.Prime)
    (hprod : (fs.map fun f => f.1 ^ f.2).prod = p - 1) (hone : powMod p k a (p - 1) = 1)
    (hne : ∀ f ∈ fs, powMod p k a ((p - 1) / f.1) ≠ 1) : p.Prime := by
  have hpow : ∀ e, e ≤ p - 1 → ((a : ZMod p) ^ e = 1 ↔ powMod p k a e = 1) := by
    intro e he
    rw [pow_eq_one_iff hp, powMod_eq p k a e (by omega)]
  refine lucas_primality p a ((hpow _ le_rfl).2 hone) fun q hq hqp => ?_
  obtain ⟨f, hf, rfl⟩ := exists_factor hfs hq (hprod ▸ hqp)
  rw [ne_eq, hpow _ (Nat.div_le_self _ _)]
  exact hne f hf

/-! ## Certificates -/

/-- Primality by trial division, for small numbers. -/
def trial (q : ℕ) : Bool := decide (2 ≤ q) && (List.range q).all fun d => decide (d < 2) || decide (q % d ≠ 0)

theorem prime_of_trial {q : ℕ} (h : trial q = true) : q.Prime := by
  simp only [trial, Bool.and_eq_true, decide_eq_true_eq, List.all_eq_true, List.mem_range, Bool.or_eq_true] at h
  obtain ⟨h2, hall⟩ := h
  rw [Nat.prime_def_lt']
  refine ⟨h2, fun d hd hlt hdvd => ?_⟩
  rcases hall d hlt with h | h
  · omega
  · exact h (Nat.mod_eq_zero_of_dvd hdvd)

/-- A number with its certificate: the number Lucas's test is run with, and the factors of its predecessor. -/
structure Entry where
  p : ℕ
  a : ℕ
  factors : List (ℕ × ℕ)

/-- The certificate is right, if the numbers in `known` are prime. -/
def Entry.check (known : List ℕ) (e : Entry) : Bool :=
  let k := e.p.log2 + 1
  decide (2 ≤ e.p) && decide ((e.factors.map fun f => f.1 ^ f.2).prod = e.p - 1) && decide (powMod e.p k e.a (e.p - 1) = 1) &&
    e.factors.all fun f => (known.contains f.1 || trial f.1) && decide (powMod e.p k e.a ((e.p - 1) / f.1) ≠ 1)

/-- The certificates are right, each given that the numbers before it are prime. -/
def checkChain : List ℕ → List Entry → Bool
  | _, [] => true
  | known, e :: es => e.check known && checkChain (e.p :: known) es

theorem Entry.prime_of_check {known : List ℕ} {e : Entry} (hknown : ∀ q ∈ known, q.Prime) (h : e.check known = true) :
    e.p.Prime := by
  simp only [Entry.check, Bool.and_eq_true, decide_eq_true_eq, List.all_eq_true, Bool.or_eq_true, List.contains_iff_mem] at h
  obtain ⟨⟨⟨h2, hprod⟩, hone⟩, hfactors⟩ := h
  refine prime_of_lucas (e.p.log2 + 1) e.p e.a e.factors h2 (Nat.lt_log2_self).le ?_ hprod hone fun f hf => (hfactors f hf).2
  intro f hf
  rcases (hfactors f hf).1 with hk | ht
  · exact hknown f.1 hk
  · exact prime_of_trial ht

/-- The numbers of a chain of right certificates are prime. -/
theorem prime_of_checkChain {known : List ℕ} {es : List Entry} (hknown : ∀ q ∈ known, q.Prime)
    (h : checkChain known es = true) : ∀ e ∈ es, e.p.Prime := by
  induction es generalizing known with
  | nil => simp
  | cons e es ih =>
    rw [checkChain, Bool.and_eq_true] at h
    have he := Entry.prime_of_check hknown h.1
    intro e' he'
    rcases List.mem_cons.1 he' with rfl | he'
    · exact he
    · refine ih ?_ h.2 e' he'
      intro q hq
      rcases List.mem_cons.1 hq with rfl | hq
      · exact he
      · exact hknown q hq

end Pratt
