import MoneroOxide.Lemmas.Address
import MoneroOxide.Lemmas.Instance

/-!
# Addresses and their strings

Whatever the bytes of the networks, as long as no two are the same, an address has one string, which is that of no other.
-/

namespace MoneroOxide

/-- Addresses and the strings they are read from are in bijection. -/
theorem address_bijective (Γ : Ctx) {mainnet stagenet testnet : AddressBytes} {bytes addressBytes : NetworkedAddressBytes}
    (hnew : NetworkedAddressBytes.new mainnet stagenet testnet = some bytes)
    (haddressBytes : addressBytes = NetworkedAddressBytes.fromConstGeneric bytes.toConstGeneric) :
    (∀ address : Address Γ, Address.fromStrWithUncheckedNetwork Γ addressBytes (address.toString addressBytes) = .ok address ∧
      Address.fromStr Γ addressBytes address.network (address.toString addressBytes) = .ok address) ∧
    ∀ (s : List UInt8) (address : Address Γ), Address.fromStrWithUncheckedNetwork Γ addressBytes s = .ok address →
      address.toString addressBytes = s := by
  have hnodup : addressBytes.all.Nodup := by
    rw [haddressBytes, NetworkedAddressBytes.fromConstGeneric_toConstGeneric]
    exact NetworkedAddressBytes.new_eq_some hnew
  refine ⟨fun address => ⟨?_, ?_⟩, fun s address h => ?_⟩
  · exact (Address.fromStrWithUncheckedNetwork_eq_ok hnodup).2 rfl
  · exact (Address.fromStr_eq_ok hnodup).2 ⟨rfl, rfl⟩
  · exact (Address.fromStrWithUncheckedNetwork_eq_ok hnodup).1 h

/-- The bytes of Monero are among those. -/
theorem address_bijective_MONERO_BYTES :
    NetworkedAddressBytes.new MONERO_BYTES.mainnet MONERO_BYTES.stagenet MONERO_BYTES.testnet = some MONERO_BYTES ∧
      ∀ address : Address instanceCtx,
        Address.fromStrWithUncheckedNetwork instanceCtx MONERO_BYTES (address.toString MONERO_BYTES) = .ok address := by
  have hnew : NetworkedAddressBytes.new MONERO_BYTES.mainnet MONERO_BYTES.stagenet MONERO_BYTES.testnet = some MONERO_BYTES := by
    decide +kernel
  refine ⟨hnew, fun address => ?_⟩
  exact ((address_bijective instanceCtx hnew (NetworkedAddressBytes.fromConstGeneric_toConstGeneric MONERO_BYTES).symm).1 address).1

end MoneroOxide
