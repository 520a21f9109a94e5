/-!
# Binary search

`bisect p lo hi` looks for the border in `[lo, hi)` between indices where `p` fails and indices where it
holds. If `p` never goes from true back to false the result is the least index at which `p` holds, or
`hi` if there is none; in any case it lies in `[lo, hi]`.
-/

namespace SmallJava

/-- Binary search for the least index in `[lo, hi)` at which `p` holds. The middle index is tested, and
the half that cannot hold the border is dropped. -/
def bisect (p : Nat → Bool) (lo hi : Nat) : Nat :=
  go (hi - lo) lo hi
where
  /-- Every round at least halves the interval, so its width bounds the number of rounds. -/
  go : Nat → Nat → Nat → Nat
    | 0, lo, _ => lo
    | rounds + 1, lo, hi =>
      if lo < hi then
        let mid := (lo + hi) / 2
        if p mid then go rounds lo mid else go rounds (mid + 1) hi
      else lo

end SmallJava
