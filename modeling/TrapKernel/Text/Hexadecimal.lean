/-!
# Hexadecimal text

Addresses, page numbers and words are shown in base sixteen after `0x`.
-/

namespace TrapKernel

/-- A number in base sixteen after `0x`: lower-case digits and no leading zeros. -/
def hex (n : Nat) : String := "0x" ++ String.ofList (Nat.toDigits 16 n)

end TrapKernel
