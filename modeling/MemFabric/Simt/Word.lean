import Mathlib.Tactic.Linarith

/-!
# Fixed-width integers

Device code mixes 32-bit and 64-bit integers.  The models compute in `Int` and
write the narrowing conversions out: `int32` and `int64` are two's complement
conversions to the signed types.
-/

namespace MemFabric.Simt

def int32 (x : Int) : Int := x.bmod (2 ^ 32)

/-- Signed 64-bit wrap-around. -/
def int64 (x : Int) : Int := x.bmod (2 ^ 64)

theorem int32_eq {x : Int} (h1 : -2 ^ 31 ≤ x) (h2 : x < 2 ^ 31) : int32 x = x := by
  simp only [int32, Int.bmod_def]
  omega

theorem int64_eq {x : Int} (h1 : -2 ^ 63 ≤ x) (h2 : x < 2 ^ 63) : int64 x = x := by
  simp only [int64, Int.bmod_def]
  omega

end MemFabric.Simt
