import Mathlib.Data.List.Basic
import Mathlib.Data.List.Count

/-!
# Journals of a buffer

A journal lists what has happened to a buffer since it was made: single writes, reads,
and passes through a lossy recoding. Replaying it gives the present contents.
-/
namespace Qtx.BufferJournals

variable {α : Type*}

inductive Entry (α : Type*)
  | write (j : ℕ) (value : α)
  | recode
  | read
  deriving DecidableEq

def Entry.apply (recode : List α → List α) : List α → Entry α → List α
  | xs, .write j value => xs.set j value
  | xs, .recode => recode xs
  | xs, .read => xs

def replay (recode : List α → List α) (start : List α) (es : List (Entry α)) : List α :=
  es.foldl (Entry.apply recode) start

variable {recode : List α → List α} {start : List α}

theorem replay_append (es es' : List (Entry α)) :
    replay recode start (es ++ es') = replay recode (replay recode start es) es' :=
  List.foldl_append ..

/-- How often the buffer has been recoded. -/
def recodings [DecidableEq α] (es : List (Entry α)) : ℕ := es.count .recode

theorem recodings_append_of_notMem [DecidableEq α] (es : List (Entry α)) {es' : List (Entry α)}
    (h : .recode ∉ es') : recodings (es ++ es') = recodings es := by
  rw [recodings, List.count_append, List.count_eq_zero_of_not_mem h]
  rfl

end Qtx.BufferJournals
