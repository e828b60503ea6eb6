import Cbpf.Jit.Passes

/-!
# Where a pass meets its marks

`generate` compares, or records, an index at the start of every instruction and at the two exits.
`found` is what a pass meets there, whatever the context recorded before; a pass that does not fail
leaves in the context exactly what it met.
-/

namespace Cbpf.Jit

namespace Compiler

variable {t : Target} {c c' : Compiler}

/-- The context of a pass when `body` reaches instruction `pc`; `c` is the one after the prologue. -/
def reach (t : Target) (c : Compiler) : Nat → Compiler
  | 0 => c
  | pc + 1 =>
    let c := (reach t c pc).markOffset pc
    match c.prog[pc]? with
    | none => c
    | some i =>
      match insnTemplates c pc i with
      | some ts => c.emit t ts
      | none => c.fail

/-- The layout of an image. -/
structure Layout where
  offset : Nat → Nat
  restrictedExit : Nat
  executiveExit : Nat
  executiveWords : Nat
  words : Nat

/-- The layout that a `generate` call starting in `c` meets. -/
def found (t : Target) (c : Compiler) : Layout :=
  let start := ({ c with index := 0 } : Compiler).prologue t
  let done := start.body t
  let exit := done.markRestrictedExit.emit t [fun _ => .capRetClr]
  let last := exit.markExecutiveExit.emit t (executiveTemplates t)
  { offset := fun pc => (reach t start pc).index
    restrictedExit := done.index
    executiveExit := exit.index
    executiveWords := last.index - exit.index
    words := last.index }

/-! ### What emission and marks leave alone -/

/-- `c'` comes from `c` and has recorded no start before that of instruction `n`. -/
structure After (n : Nat) (c c' : Compiler) : Prop where
  failed : c'.failed = false → c.failed = false
  prog : c'.prog = c.prog
  offset : ∀ pc < n, c'.offset pc = c.offset pc

theorem After.refl (n : Nat) (c : Compiler) : After n c c := ⟨id, rfl, fun _ _ => rfl⟩

theorem After.trans {n n' : Nat} {c'' : Compiler} (h : After n c c') (hle : n ≤ n')
    (h' : After n' c' c'') : After n c c'' where
  failed := fun hf => h.failed (h'.failed hf)
  prog := h'.prog.trans h.prog
  offset := fun pc hpc => (h'.offset pc (Nat.lt_of_lt_of_le hpc hle)).trans (h.offset pc hpc)

theorem After.mono {n n' : Nat} (h : After n' c c') (hle : n ≤ n') : After n c c' :=
  ⟨h.failed, h.prog, fun pc hpc => h.offset pc (Nat.lt_of_lt_of_le hpc hle)⟩

/-- `word` changes the index, the image and the failure flag. -/
theorem word_frame (t : Target) (c : Compiler) (w : Word) :
    ∃ index image failed, c.word t w =
      { c with index := index, image := image, failed := c.failed || failed } := by
  unfold word
  split
  · exact ⟨c.index, c.image, true, by simp [fail]⟩
  · split
    · exact ⟨c.index + 1, c.image, false, by simp⟩
    · rename_i image himage
      split
      · exact ⟨c.index + 1, c.image, image c.index != w, rfl⟩
      · exact ⟨c.index + 1, some (Function.update image c.index w), false, by simp⟩

theorem emit_frame (t : Target) (c : Compiler) (ts : List Template) :
    ∃ index image failed, c.emit t ts =
      { c with index := index, image := image, failed := c.failed || failed } := by
  induction ts generalizing c with
  | nil => exact ⟨c.index, c.image, false, by simp [emit]⟩
  | cons x ts ih =>
    obtain ⟨index, image, failed, hword⟩ := word_frame t c (x c.index)
    obtain ⟨index', image', failed', hrest⟩ := ih (c.word t (x c.index))
    refine ⟨index', image', failed || failed', ?_⟩
    rw [emit_cons, hrest, hword]
    simp [Bool.or_assoc]

theorem after_emit (n : Nat) (t : Target) (c : Compiler) (ts : List Template) :
    After n c (c.emit t ts) := by
  obtain ⟨index, image, failed, hemit⟩ := emit_frame t c ts
  rw [hemit]
  exact ⟨fun hf => (Bool.or_eq_false_iff.mp hf).1, rfl, fun _ _ => rfl⟩

theorem offset_emit (t : Target) (c : Compiler) (ts : List Template) :
    (c.emit t ts).offset = c.offset := by
  obtain ⟨index, image, failed, hemit⟩ := emit_frame t c ts
  rw [hemit]

theorem restrictedExit_emit (t : Target) (c : Compiler) (ts : List Template) :
    (c.emit t ts).restrictedExit = c.restrictedExit := by
  obtain ⟨index, image, failed, hemit⟩ := emit_frame t c ts
  rw [hemit]

theorem executiveExit_emit (t : Target) (c : Compiler) (ts : List Template) :
    (c.emit t ts).executiveExit = c.executiveExit := by
  obtain ⟨index, image, failed, hemit⟩ := emit_frame t c ts
  rw [hemit]

theorem after_fail (n : Nat) (c : Compiler) : After n c c.fail := ⟨nofun, rfl, fun _ _ => rfl⟩

theorem after_markOffset (c : Compiler) (pc : Nat) : After pc c (c.markOffset pc) := by
  unfold markOffset
  split
  · refine ⟨id, rfl, fun q hq => ?_⟩
    exact Function.update_of_ne (Nat.ne_of_lt hq) _ _
  · split
    · exact after_fail pc c
    · exact .refl pc c

/-- A mark records a value in the first pass, and compares it in the others. One that does not fail
leaves the context as if it had recorded the value. -/
theorem mark_met {b : Bool} {stored value : Nat} (hkept : stored = value → c = c')
    (hfailed : c'.failed = c.failed)
    (h : (if b then c' else if stored ≠ value then c.fail else c).failed = false) :
    c.failed = false ∧ (if b then c' else if stored ≠ value then c.fail else c) = c' := by
  by_cases hb : b = true
  · rw [if_pos hb] at h ⊢
    exact ⟨hfailed ▸ h, rfl⟩
  rw [if_neg hb] at h ⊢
  by_cases hne : stored ≠ value
  · rw [if_pos hne] at h
    cases h
  · rw [if_neg hne] at h ⊢
    exact ⟨h, hkept (not_not.mp hne)⟩

/-- A mark that does not fail holds the index at which it was met. -/
theorem offset_markOffset {pc : Nat} (h : (c.markOffset pc).failed = false) :
    (c.markOffset pc).offset pc = c.index := by
  have hkept : c.offset pc = c.index →
      c = { c with offset := Function.update c.offset pc c.index } := by
    intro heq
    have hupdate : c.offset = Function.update c.offset pc c.index :=
      (Function.update_eq_self_iff.mpr heq.symm).symm
    exact congrArg (fun offset => { c with offset := offset }) hupdate
  have hmet : c.markOffset pc = _ := (mark_met hkept rfl h).2
  rw [hmet]
  exact Function.update_self _ _ _

/-- One turn of the loop of `body`. -/
theorem after_reach_succ (c : Compiler) (pc : Nat) :
    After pc (reach t c pc) (reach t c (pc + 1)) := by
  have hmark := after_markOffset (reach t c pc) pc
  rw [reach]
  split
  · exact hmark
  · split
    · exact hmark.trans (Nat.le_refl _) (after_emit pc t _ _)
    · exact hmark.trans (Nat.le_refl _) (after_fail pc _)

theorem after_reach (c : Compiler) {pc n : Nat} (h : pc ≤ n) :
    After pc (reach t c pc) (reach t c n) := by
  induction n with
  | zero =>
    obtain rfl := Nat.le_zero.mp h
    exact .refl _ _
  | succ n ih =>
    rcases Nat.le_succ_iff.mp h with hle | rfl
    · exact (ih hle).trans hle (after_reach_succ c n)
    · exact .refl _ _

/-- After the mark of `pc` has been met, the context keeps it. -/
theorem after_markOffset_reach (c : Compiler) {pc n : Nat} (h : pc < n) :
    After (pc + 1) ((reach t c pc).markOffset pc) (reach t c n) := by
  have hturn : After (pc + 1) ((reach t c pc).markOffset pc) (reach t c (pc + 1)) := by
    rw [reach]
    split
    · exact .refl _ _
    · split
      · exact after_emit _ t _ _
      · exact after_fail _ _
  exact hturn.trans (Nat.le_refl _) (after_reach c h)

/-- `body` as the state reached at the end, with the last mark. -/
theorem bodyLoop_reach {rest : List BpfInsn} {pc : Nat} (hrest : c.prog.drop pc = rest)
    (hpc : pc ≤ c.prog.length) :
    bodyLoop t pc rest (reach t c pc) =
      (reach t c c.prog.length).markOffset c.prog.length := by
  induction rest generalizing pc with
  | nil =>
    obtain rfl := rest_nil hrest hpc
    rfl
  | cons i rest ih =>
    obtain ⟨hi, hlt, hdrop⟩ := rest_cons hrest
    have hprog : ((reach t c pc).markOffset pc).prog = c.prog :=
      (after_markOffset _ pc).prog.trans (after_reach c (Nat.zero_le pc)).prog
    rewrite [bodyLoop, ← ih hdrop hlt, reach, hprog, hi]
    rfl

theorem body_eq (c : Compiler) :
    c.body t = (reach t c c.prog.length).markOffset c.prog.length :=
  bodyLoop_reach (show c.prog.drop 0 = c.prog from rfl) (Nat.zero_le _)

/-- The starts that `body` met are those in the context. -/
theorem offset_body (hfailed : (c.body t).failed = false) {pc : Nat} (hpc : pc ≤ c.prog.length) :
    (c.body t).offset pc = (reach t c pc).index := by
  rw [body_eq] at hfailed ⊢
  rcases Nat.lt_or_eq_of_le hpc with hlt | rfl
  · have hkept := (after_markOffset_reach (t := t) c hlt).trans hlt
      (after_markOffset (reach t c c.prog.length) c.prog.length)
    rw [hkept.offset pc (Nat.lt_succ_self pc)]
    exact offset_markOffset (hkept.failed hfailed)
  · exact offset_markOffset hfailed

/-! ### The exits -/

theorem markRestrictedExit_met (h : c.markRestrictedExit.failed = false) :
    c.failed = false ∧ c.markRestrictedExit = { c with restrictedExit := c.index } :=
  mark_met (congrArg fun n => { c with restrictedExit := n }) rfl h

theorem markExecutiveExit_met (h : c.markExecutiveExit.failed = false) :
    c.failed = false ∧ c.markExecutiveExit = { c with executiveExit := c.index } :=
  mark_met (congrArg fun n => { c with executiveExit := n }) rfl h

theorem markExecutiveWords_met {start : Nat} (h : (c.markExecutiveWords start).failed = false) :
    c.failed = false ∧
      c.markExecutiveWords start = { c with executiveWords := c.index - start } :=
  mark_met (congrArg fun n => { c with executiveWords := n }) rfl h

theorem index_markExecutiveExit (c : Compiler) : c.markExecutiveExit.index = c.index := by
  unfold markExecutiveExit
  split
  · rfl
  · split <;> rfl

/-- What a context has recorded for `prog`. -/
structure Records (c : Compiler) (len : Nat) (l : Layout) : Prop where
  offset : ∀ pc ≤ len, c.offset pc = l.offset pc
  restrictedExit : c.restrictedExit = l.restrictedExit
  executiveExit : c.executiveExit = l.executiveExit
  executiveWords : c.executiveWords = l.executiveWords
  words : c.index = l.words

/-- A pass that does not fail leaves in the context exactly the layout that it met, and started
without a failure. -/
theorem generate_met (hfailed : (c.generate t).failed = false) :
    c.failed = false ∧ Records (c.generate t) c.prog.length (found t c) := by
  let start := ({ c with index := 0 } : Compiler).prologue t
  let done := start.body t
  let exit := done.markRestrictedExit.emit t [fun _ => .capRetClr]
  let last := exit.markExecutiveExit.emit t (executiveTemplates t)
  have hgenerate : c.generate t = last.markExecutiveWords exit.index := by
    change last.markExecutiveWords exit.markExecutiveExit.index = _
    rw [index_markExecutiveExit]
  rw [hgenerate] at hfailed ⊢
  -- backwards through the epilogue: nothing has failed, so every mark is the index it met
  obtain ⟨hlast, hwords⟩ := markExecutiveWords_met hfailed
  have hlastAfter : After 0 exit.markExecutiveExit last := after_emit 0 t _ _
  obtain ⟨hexit, hexecutive⟩ := markExecutiveExit_met (hlastAfter.failed hlast)
  have hexitAfter : After 0 done.markRestrictedExit exit := after_emit 0 t _ _
  obtain ⟨hdone, hrestricted⟩ := markRestrictedExit_met (hexitAfter.failed hexit)
  have hprologue : After 0 { c with index := 0 } start := after_emit 0 t _ _
  have hprog : start.prog = c.prog := hprologue.prog
  have hbody : After 0 start done := by
    change After 0 start (start.body t)
    rw [body_eq]
    exact (after_reach (t := t) start (Nat.zero_le _)).trans (Nat.le_refl _)
      ((after_markOffset _ _).mono (Nat.zero_le _))
  have hoffset : last.offset = done.offset := calc
    last.offset = exit.markExecutiveExit.offset := offset_emit t _ _
    _ = exit.offset := by rw [hexecutive]
    _ = done.markRestrictedExit.offset := offset_emit t _ _
    _ = done.offset := by rw [hrestricted]
  have hfirst : last.restrictedExit = done.index := calc
    last.restrictedExit = exit.markExecutiveExit.restrictedExit := restrictedExit_emit t _ _
    _ = exit.restrictedExit := by rw [hexecutive]
    _ = done.markRestrictedExit.restrictedExit := restrictedExit_emit t _ _
    _ = done.index := by rw [hrestricted]
  have hsecond : last.executiveExit = exit.index := calc
    last.executiveExit = exit.markExecutiveExit.executiveExit := executiveExit_emit t _ _
    _ = exit.index := by rw [hexecutive]
  have hstarts : ∀ pc ≤ c.prog.length, last.offset pc = (reach t start pc).index := by
    intro pc hpc
    rw [hoffset]
    exact offset_body hdone (by rw [hprog]; exact hpc)
  have hfound : found t c = ⟨fun pc => (reach t start pc).index, done.index, exit.index,
      last.index - exit.index, last.index⟩ := rfl
  rw [hwords, hfound]
  exact ⟨hprologue.failed (hbody.failed hdone), hstarts, hfirst, hsecond, rfl, rfl⟩

end Compiler

end Cbpf.Jit
