/-!
# Words of 64 bits

Which integers a signed or an unsigned word of 64 bits holds. The signed range
ends below `2 ^ 63 = 0x8000000000000000`, the unsigned one below
`2 ^ 64 = 0x10000000000000000`.
-/

namespace Aggregation.Word

/-- The least integer that a signed word holds. -/
def leastSigned : Int := -0x8000000000000000

/-- The greatest integer that a signed word holds. -/
def greatestSigned : Int := 0x7fffffffffffffff

/-- The greatest integer that an unsigned word holds. -/
def greatestUnsigned : Int := 0xffffffffffffffff

/-- The signed word of an integer that fits one. -/
def signed? (n : Int) : Option Int64 :=
  if -0x8000000000000000 ≤ n ∧ n < 0x8000000000000000 then some (Int64.ofInt n) else none

/-- The unsigned word of an integer that fits one. -/
def unsigned? (n : Int) : Option UInt64 :=
  if 0 ≤ n ∧ n < 0x10000000000000000 then some (UInt64.ofNat n.toNat) else none

theorem toInt_of_signed? {n : Int} {w : Int64} (h : signed? n = some w) : w.toInt = n := by
  unfold signed? at h
  split at h
  · rename_i bounds
    obtain rfl := Option.some.inj h
    exact Int64.toInt_ofInt_of_le (by omega) (by omega)
  · contradiction

theorem toNat_of_unsigned? {n : Int} {w : UInt64} (h : unsigned? n = some w) :
    (w.toNat : Int) = n := by
  unfold unsigned? at h
  split at h
  · rename_i bounds
    obtain rfl := Option.some.inj h
    rw [UInt64.toNat_ofNat_of_lt' (by simp only [UInt64.size]; omega)]
    omega
  · contradiction

end Aggregation.Word
