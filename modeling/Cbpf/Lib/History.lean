import Mathlib.Data.List.Basic

/-!
# Logs whose every entry is justified by the entries before it

`History P log` is built one entry at a time, each with a proof of `P` about the log so far. A
component that only appends to its log keeps such a law with one lemma for each append, and the law
is then read off at any position.
-/

universe u

/-- Every entry `e` of the log satisfies `P earlier e`. -/
inductive History {α : Type u} (P : List α → α → Prop) : List α → Prop
  | nil : History P []
  | snoc {log : List α} {e : α} : History P log → P log e → History P (log ++ [e])

namespace History

variable {α : Type u} {P : List α → α → Prop}

/-- The law at one position of the log. -/
theorem split {pre post : List α} {e : α} (h : History P (pre ++ e :: post)) : P pre e := by
  generalize hlog : pre ++ e :: post = log at h
  induction h generalizing post with
  | nil => simp at hlog
  | @snoc log e' _ hP ih =>
    rcases List.eq_nil_or_concat post with rfl | ⟨post', e'', rfl⟩
    · obtain ⟨rfl, he⟩ := List.append_inj' hlog rfl
      obtain rfl : e = e' := by simpa using he
      exact hP
    · have hassoc : (pre ++ e :: post') ++ [e''] = log ++ [e'] := by simpa using hlog
      exact ih (List.append_inj_left' hassoc rfl)

end History
