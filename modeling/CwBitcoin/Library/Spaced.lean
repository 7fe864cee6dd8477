import Mathlib.Data.List.Chain
import Mathlib.Tactic.Ring

/-!
# Sequences of times that are spaced out

When consecutive times are at least an interval apart, a number of them takes a
while, and only so many of them fit into a while.
-/

/-- Each time is at least the interval after the one before it. -/
def Spaced (interval : Nat) (times : List Nat) : Prop :=
  times.IsChain fun earlier later => earlier + interval ≤ later

namespace Spaced

variable {interval age : Nat} {times : List Nat}

theorem drop (spaced : Spaced interval times) (count : Nat) : Spaced interval (times.drop count) :=
  List.IsChain.drop spaced count

/-- The times between two positions take at least their number of intervals. -/
theorem add_mul_le_getElem (spaced : Spaced interval times) {start count : Nat}
    (inRange : start + count < times.length) :
    times[start] + count * interval ≤ times[start + count] := by
  induction count with
  | zero => simp
  | succ count ih =>
      have step : times[start + count] + interval ≤ times[start + count + 1] :=
        List.isChain_iff_getElem.mp spaced (start + count) inRange
      calc
        times[start] + (count + 1) * interval
            = times[start] + count * interval + interval := by ring
        _ ≤ times[start + count] + interval := Nat.add_le_add_right (ih (by omega)) interval
        _ ≤ times[start + count + 1] := step

/-- Times within an age fit only once for each interval. -/
theorem length_le (spaced : Spaced interval times) (positive : 0 < interval)
    (young : ∀ oldest ∈ times.head?, ∀ newest ∈ times.getLast?, newest ≤ oldest + age) :
    times.length ≤ age / interval + 1 := by
  rcases Nat.eq_zero_or_pos times.length with empty | nonempty
  · rw [empty]
    exact Nat.zero_le _
  · have whole : times[0] + (times.length - 1) * interval ≤ times[0 + (times.length - 1)] :=
      spaced.add_mul_le_getElem (by omega)
    have inAge : times[0 + (times.length - 1)] ≤ times[0] + age := by
      refine young _ ?_ _ ?_
      · simp [List.head?_eq_getElem?]
      · simp [List.getLast?_eq_getElem?]
    have fits : (times.length - 1) * interval ≤ age := by omega
    have counted : times.length - 1 ≤ age / interval := (Nat.le_div_iff_mul_le positive).mpr fits
    omega

end Spaced
