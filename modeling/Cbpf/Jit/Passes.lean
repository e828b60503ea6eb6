import Cbpf.Jit.Emission

/-!
# The image

What each pass of the generator does to the context, and from it the words that the checked image
holds.
-/

namespace Cbpf.Jit

variable {t : Target}

/-! ### Emitting a list of words -/

/-- The image after writing the words of `ts` from index `n` on. -/
def place (image : Nat → Word) (n : Nat) : List Template → Nat → Word
  | [] => image
  | x :: ts => place (Function.update image n (x n)) (n + 1) ts

theorem place_of_lt (image : Nat → Word) {n p : Nat} (ts : List Template) (h : p < n) :
    place image n ts p = image p := by
  induction ts generalizing image n with
  | nil => rfl
  | cons x ts ih =>
    rw [place, ih _ (by omega)]
    exact Function.update_of_ne (by omega) _ _

theorem place_get (image : Nat → Word) (n : Nat) (ts : List Template) {i : Nat} {x : Template}
    (h : ts[i]? = some x) : place image n ts (n + i) = x (n + i) := by
  induction ts generalizing image n i with
  | nil => cases h
  | cons y ts ih =>
    cases i with
    | zero =>
      obtain rfl : y = x := by simpa using h
      change place _ (n + 1) ts n = y n
      rw [place_of_lt _ _ (Nat.lt_add_one n), Function.update_self]
    | succ i =>
      have hi := ih (Function.update image n (y n)) (n + 1) (by simpa using h)
      rw [place]
      simpa only [Nat.add_right_comm n 1 i, Nat.add_assoc] using hi

/-- Does the image hold the words of `ts` from index `n` on? -/
def Holds (image : Nat → Word) (n : Nat) (ts : List Template) : Prop :=
  ∀ i x, ts[i]? = some x → image (n + i) = x (n + i)

theorem holds_place (image : Nat → Word) (n : Nat) (ts : List Template) :
    Holds (place image n ts) n ts := fun _ _ h => place_get image n ts h

theorem Holds.tail {image : Nat → Word} {n : Nat} {x : Template} {ts : List Template}
    (h : Holds image n (x :: ts)) : Holds image (n + 1) ts := by
  intro i y hy
  have := h (i + 1) y (by simpa using hy)
  simpa only [Nat.add_right_comm n 1 i, Nat.add_assoc] using this

theorem Holds.append {image : Nat → Word} {n : Nat} {ts us : List Template} (h : Holds image n ts)
    (h' : Holds image (n + ts.length) us) : Holds image n (ts ++ us) := by
  intro i x hx
  rcases Nat.lt_or_ge i ts.length with hlt | hge
  · rw [List.getElem?_append_left hlt] at hx
    exact h i x hx
  · rw [List.getElem?_append_right hge] at hx
    have := h' _ x hx
    rwa [Nat.add_assoc, Nat.add_sub_cancel' hge] at this

theorem Holds.of_append {image : Nat → Word} {n : Nat} {ts us : List Template}
    (h : Holds image n (ts ++ us)) : Holds image n ts ∧ Holds image (n + ts.length) us := by
  refine ⟨fun i x hx => h i x ?_, fun i x hx => ?_⟩
  · rw [List.getElem?_append_left (List.getElem?_eq_some_iff.mp hx).1]
    exact hx
  · rw [Nat.add_assoc]
    apply h
    rw [List.getElem?_append_right (Nat.le_add_right _ _), Nat.add_sub_cancel_left]
    exact hx

/-- A later change leaves earlier words alone. -/
theorem Holds.congr {image image' : Nat → Word} {n : Nat} {ts : List Template}
    (h : Holds image n ts) (heq : ∀ p < n + ts.length, image' p = image p) :
    Holds image' n ts := by
  intro i x hx
  have hi : i < ts.length := (List.getElem?_eq_some_iff.mp hx).1
  rw [heq _ (by omega)]
  exact h i x hx

namespace Compiler

variable {c : Compiler} {image : Nat → Word}

theorem emit_cons (t : Target) (c : Compiler) (x : Template) (ts : List Template) :
    c.emit t (x :: ts) = (c.word t (x c.index)).emit t ts := rfl

variable (henc : t.Encodes)
include henc

/-- The layout pass counts. -/
theorem emit_layout {ts : List Template} (hr : InRange ts) (himage : c.image = none)
    (hfit : c.index + ts.length ≤ cbpfMaxWords) :
    c.emit t ts = { c with index := c.index + ts.length } := by
  induction ts generalizing c with
  | nil => rfl
  | cons x ts ih =>
    rw [List.length_cons] at hfit ⊢
    have hlt : ¬ cbpfMaxWords ≤ c.index := by omega
    have hx := henc _ (hr x List.mem_cons_self c.index (by unfold cbpfMaxWords at hfit; omega))
    have hword : c.word t (x c.index) = { c with index := c.index + 1 } := by
      simp [word, himage, hx, hlt]
    have hadd : c.index + 1 + ts.length = c.index + (ts.length + 1) := by omega
    have hrest := ih (c := { c with index := c.index + 1 })
      (fun y hy => hr y (List.mem_cons_of_mem x hy)) himage (by dsimp only; omega)
    rw [emit_cons, hword, hrest, ← hadd]

/-- The second pass writes. -/
theorem emit_write {ts : List Template} (hr : InRange ts) (himage : c.image = some image)
    (hcheck : c.check = false) (hwords : c.words ≤ cbpfMaxWords)
    (hfit : c.index + ts.length ≤ c.words) :
    c.emit t ts =
      { c with index := c.index + ts.length, image := some (place image c.index ts) } := by
  induction ts generalizing c image with
  | nil =>
    rw [place, ← himage]
    rfl
  | cons x ts ih =>
    rw [List.length_cons] at hfit ⊢
    have hlt : ¬ cbpfMaxWords ≤ c.index := by omega
    have hlt' : ¬ c.words ≤ c.index := by omega
    have hx := henc _ (hr x List.mem_cons_self c.index (by unfold cbpfMaxWords at hwords; omega))
    have hword : c.word t (x c.index) =
        { c with
          index := c.index + 1
          image := some (Function.update image c.index (x c.index)) } := by
      simp [word, himage, hx, hlt, hlt', hcheck]
    have hadd : c.index + 1 + ts.length = c.index + (ts.length + 1) := by omega
    have hrest := ih (c := { c with
        index := c.index + 1
        image := some (Function.update image c.index (x c.index)) })
      (fun y hy => hr y (List.mem_cons_of_mem x hy)) rfl hcheck hwords (by dsimp only; omega)
    rw [emit_cons, hword, hrest, ← hadd]
    rfl

/-- The third pass finds what the second has written. -/
theorem emit_check {ts : List Template} (hr : InRange ts) (himage : c.image = some image)
    (hcheck : c.check = true) (hwords : c.words ≤ cbpfMaxWords)
    (hfit : c.index + ts.length ≤ c.words) (hholds : Holds image c.index ts) :
    c.emit t ts = { c with index := c.index + ts.length } := by
  induction ts generalizing c with
  | nil => rfl
  | cons x ts ih =>
    rw [List.length_cons] at hfit ⊢
    have hlt : ¬ cbpfMaxWords ≤ c.index := by omega
    have hlt' : ¬ c.words ≤ c.index := by omega
    have hx := henc _ (hr x List.mem_cons_self c.index (by unfold cbpfMaxWords at hwords; omega))
    have hsame : image c.index = x c.index := hholds 0 x rfl
    have hword : c.word t (x c.index) = { c with index := c.index + 1 } := by
      simp [word, himage, hx, hlt, hlt', hcheck, hsame]
    have hadd : c.index + 1 + ts.length = c.index + (ts.length + 1) := by omega
    have hrest := ih (c := { c with index := c.index + 1 })
      (fun y hy => hr y (List.mem_cons_of_mem x hy)) himage hcheck hwords (by dsimp only; omega)
      hholds.tail
    rw [emit_cons, hword, hrest, ← hadd]

/-! ### The layout pass -/

omit henc

theorem markOffset_layout (himage : c.image = none) (pc : Nat) :
    c.markOffset pc = { c with offset := Function.update c.offset pc c.index } := by
  simp [markOffset, himage]

theorem bounded_update (hb : Bounded c) (pc : Nat) (hindex : c.index ≤ 1024) :
    Bounded { c with offset := Function.update c.offset pc c.index } where
  offset := by
    intro p
    by_cases heq : p = pc
    · rw [heq]
      change Function.update c.offset pc c.index pc ≤ 1024
      rw [Function.update_self]
      exact hindex
    · change Function.update c.offset pc c.index p ≤ 1024
      rw [Function.update_of_ne heq]
      exact hb.offset p
  restrictedExit := hb.restrictedExit
  executiveExit := hb.executiveExit
  executiveWords := hb.executiveWords

/-- No instruction starts beyond the end of the image. -/
theorem startOf_le (hc : Compilable c) {pc : Nat} (hpc : pc ≤ c.prog.length) :
    startOf t c.prog pc + 1 + executiveLength t ≤ 450 := by
  have htotal := totalWords_le t hc.length_le
  have hmono := startOf_mono t c.prog hpc
  unfold totalWords at htotal
  omega

include henc

/-- The loop of `body` records where every instruction starts. -/
theorem bodyLoop_layout {rest : List BpfInsn} {pc : Nat} (hc : Compilable c) (hb : Bounded c)
    (himage : c.image = none) (hrest : c.prog.drop pc = rest) (hpc : pc ≤ c.prog.length)
    (hindex : c.index = startOf t c.prog pc) :
    ∃ offset, bodyLoop t pc rest c =
        { c with offset := offset, index := startOf t c.prog c.prog.length } ∧
      (∀ p, pc ≤ p → p ≤ c.prog.length → offset p = startOf t c.prog p) ∧
      (∀ p, p < pc → offset p = c.offset p) ∧ ∀ p, offset p ≤ 1024 := by
  induction rest generalizing pc c with
  | nil =>
    obtain rfl := rest_nil hrest hpc
    have hle := startOf_le (t := t) hc (Nat.le_refl _)
    refine ⟨Function.update c.offset c.prog.length c.index, ?_, ?_, ?_,
      (bounded_update hb _ (by omega)).offset⟩
    · rw [bodyLoop, markOffset_layout himage, ← hindex]
    · intro p hp hp'
      obtain rfl : p = c.prog.length := by omega
      rw [Function.update_self, hindex]
    · exact fun p hp => Function.update_of_ne (by omega) _ _
  | cons i rest ih =>
    obtain ⟨hi, hlt, hdrop⟩ := rest_cons hrest
    have hle := startOf_le (t := t) hc (show pc + 1 ≤ c.prog.length from hlt)
    have hnext := startOf_succ t hi
    have hb' := bounded_update hb pc (by omega)
    have hc' : Compilable { c with offset := Function.update c.offset pc c.index } :=
      ⟨hc.length_le, hc.grammar, hc.operation_le⟩
    obtain ⟨ts, hts, hwidth, hr⟩ := insnTemplates_some hc' hb' hi
    have hemit := emit_layout henc hr
      (c := { c with offset := Function.update c.offset pc c.index }) himage (by
        change c.index + ts.length ≤ 1024
        omega)
    have hindex' : c.index + ts.length = startOf t c.prog (pc + 1) := by omega
    obtain ⟨offset, hloop, hrecorded, hkept, hbound⟩ := ih
      (c := { c with
        offset := Function.update c.offset pc c.index
        index := c.index + ts.length })
      ⟨hc.length_le, hc.grammar, hc.operation_le⟩
      ⟨hb'.offset, hb'.restrictedExit, hb'.executiveExit, hb'.executiveWords⟩
      himage hdrop hlt hindex'
    refine ⟨offset, ?_, ?_, ?_, hbound⟩
    · rw [bodyLoop, markOffset_layout himage, hts]
      dsimp only
      rw [hemit, hloop]
    · intro p hp hp'
      by_cases heq : p = pc
      · rw [hkept p (by omega), heq]
        change Function.update c.offset pc c.index pc = _
        rw [Function.update_self, hindex]
      · exact hrecorded p (by omega) hp'
    · intro p hp
      rw [hkept p (by omega)]
      exact Function.update_of_ne (by omega) _ _

theorem prologue_layout (hb : Bounded c) (himage : c.image = none) (hindex : c.index = 0) :
    c.prologue t = { c with index := prologueLength t } := by
  have hbti := Bool.toNat_le t.bti
  have hauth := Bool.toNat_le t.ptrAuth
  have hlen := length_prologue t c
  have hfit : c.index + (prologueTemplates t c).length ≤ cbpfMaxWords := by
    rw [hlen, hindex]
    unfold prologueLength cbpfMaxWords
    omega
  rw [prologue, emit_layout henc (inRange_prologue t hb) himage hfit, hlen, hindex, Nat.zero_add]

theorem epilogue_layout (himage : c.image = none)
    (hfit : c.index + 1 + executiveLength t ≤ cbpfMaxWords) :
    c.epilogue t = { c with
      index := c.index + 1 + executiveLength t
      restrictedExit := c.index
      executiveExit := c.index + 1
      executiveWords := executiveLength t } := by
  have hclr := emit_layout henc inRange_retClr (c := { c with restrictedExit := c.index }) himage
    (by change c.index + 1 ≤ _; omega)
  have hexec := emit_layout henc (inRange_executive t)
    (c := { c with index := c.index + 1, restrictedExit := c.index, executiveExit := c.index + 1 })
    himage (by rw [length_executive]; exact hfit)
  have h₁ : c.markRestrictedExit = { c with restrictedExit := c.index } := by
    simp [markRestrictedExit, himage]
  rw [epilogue, h₁, hclr, markExecutiveExit, if_pos (by simp [himage])]
  dsimp only [List.length_singleton]
  rw [hexec, markExecutiveWords, if_pos (by simp [himage]), length_executive]
  dsimp only
  rw [Nat.add_sub_cancel_left]

/-- The first pass fills in the layout. -/
theorem generate_layout (hc : Compilable c) (hb : Bounded c) (himage : c.image = none) :
    ∃ offset, c.generate t = { c with
        offset := offset
        index := totalWords t c.prog
        restrictedExit := startOf t c.prog c.prog.length
        executiveExit := startOf t c.prog c.prog.length + 1
        executiveWords := executiveLength t } ∧
      (∀ p, p ≤ c.prog.length → offset p = startOf t c.prog p) ∧ ∀ p, offset p ≤ 1024 := by
  have hle := startOf_le (t := t) hc (Nat.le_refl _)
  have hprologue := prologue_layout henc (c := { c with index := 0 })
    ⟨hb.offset, hb.restrictedExit, hb.executiveExit, hb.executiveWords⟩ himage rfl
  obtain ⟨offset, hloop, hrecorded, _, hbound⟩ := bodyLoop_layout henc
    (c := { c with index := prologueLength t }) ⟨hc.length_le, hc.grammar, hc.operation_le⟩
    ⟨hb.offset, hb.restrictedExit, hb.executiveExit, hb.executiveWords⟩ himage
    (show c.prog.drop 0 = c.prog from rfl) (Nat.zero_le _) rfl
  have hepilogue := epilogue_layout henc
    (c := { c with offset := offset, index := startOf t c.prog c.prog.length }) himage (by
      change startOf t c.prog c.prog.length + 1 + executiveLength t ≤ 1024
      omega)
  refine ⟨offset, ?_, fun p => hrecorded p (Nat.zero_le p), hbound⟩
  rw [generate, hprologue]
  change (bodyLoop t 0 c.prog { c with index := prologueLength t }).epilogue t = _
  rw [hloop]
  exact hepilogue

/-! ### The other two passes -/

omit henc

/-- What the layout pass leaves. -/
structure LaidOut (t : Target) (c : Compiler) : Prop where
  compilable : Compilable c
  bounded : Bounded c
  offset : ∀ p, p ≤ c.prog.length → c.offset p = startOf t c.prog p
  restrictedExit : c.restrictedExit = startOf t c.prog c.prog.length
  executiveExit : c.executiveExit = startOf t c.prog c.prog.length + 1
  executiveWords : c.executiveWords = executiveLength t
  words : c.words = totalWords t c.prog

/-- The words of the instruction at `pc` and of the others before and after it. -/
structure Written (t : Target) (c : Compiler) (image : Nat → Word) : Prop where
  prologue : Holds image 0 (prologueTemplates t c)
  insn : ∀ pc i ts, c.prog[pc]? = some i → insnTemplates c pc i = some ts →
    Holds image (startOf t c.prog pc) ts
  restrictedExit : Holds image (startOf t c.prog c.prog.length) [fun _ => .capRetClr]
  executive : Holds image (startOf t c.prog c.prog.length + 1) (executiveTemplates t)

namespace LaidOut

variable (h : LaidOut t c)
include h

theorem words_le : c.words ≤ cbpfMaxWords := by
  have := totalWords_le t h.compilable.length_le
  rw [h.words]
  unfold cbpfMaxWords
  omega

theorem startOf_le_words {pc : Nat} (hpc : pc ≤ c.prog.length) :
    startOf t c.prog pc + 1 + executiveLength t ≤ c.words := by
  rw [h.words, totalWords]
  have := startOf_mono t c.prog hpc
  omega

theorem markOffset_eq (himage : c.image = some image) {pc : Nat} (hpc : pc ≤ c.prog.length)
    (hindex : c.index = startOf t c.prog pc) : c.markOffset pc = c := by
  simp [markOffset, himage, h.offset pc hpc, hindex]

theorem markRestrictedExit_eq (himage : c.image = some image)
    (hindex : c.index = startOf t c.prog c.prog.length) : c.markRestrictedExit = c := by
  simp [markRestrictedExit, himage, h.restrictedExit, hindex]

theorem markExecutiveExit_eq (himage : c.image = some image)
    (hindex : c.index = startOf t c.prog c.prog.length + 1) : c.markExecutiveExit = c := by
  simp [markExecutiveExit, himage, h.executiveExit, hindex]

theorem markExecutiveWords_eq (himage : c.image = some image) {start : Nat}
    (hindex : c.index = start + executiveLength t) : c.markExecutiveWords start = c := by
  simp [markExecutiveWords, himage, h.executiveWords, hindex]

/-- The pass has moved on and changed the image. -/
theorem move (index : Nat) (image : Option (Nat → Word)) :
    LaidOut t { c with index := index, image := image } where
  compilable := ⟨h.compilable.length_le, h.compilable.grammar, h.compilable.operation_le⟩
  bounded := ⟨h.bounded.offset, h.bounded.restrictedExit, h.bounded.executiveExit,
    h.bounded.executiveWords⟩
  offset := h.offset
  restrictedExit := h.restrictedExit
  executiveExit := h.executiveExit
  executiveWords := h.executiveWords
  words := h.words

end LaidOut

include henc

theorem bodyLoop_write {rest : List BpfInsn} {pc : Nat} (h : LaidOut t c)
    (himage : c.image = some image) (hcheck : c.check = false) (hrest : c.prog.drop pc = rest)
    (hpc : pc ≤ c.prog.length) (hindex : c.index = startOf t c.prog pc) :
    ∃ image', bodyLoop t pc rest c =
        { c with index := startOf t c.prog c.prog.length, image := some image' } ∧
      (∀ p < startOf t c.prog pc, image' p = image p) ∧
      ∀ q i ts, pc ≤ q → c.prog[q]? = some i → insnTemplates c q i = some ts →
        Holds image' (startOf t c.prog q) ts := by
  induction rest generalizing pc c image with
  | nil =>
    obtain rfl := rest_nil hrest hpc
    refine ⟨image, ?_, fun _ _ => rfl, fun q i ts hq hi => ?_⟩
    · rw [bodyLoop, h.markOffset_eq himage (Nat.le_refl _) hindex, ← hindex, ← himage]
    · rw [List.getElem?_eq_none hq] at hi
      cases hi
  | cons i rest ih =>
    obtain ⟨hi, hlt, hdrop⟩ := rest_cons hrest
    have hle := h.startOf_le_words (show pc + 1 ≤ c.prog.length from hlt)
    have hnext := startOf_succ t hi
    obtain ⟨ts, hts, hwidth, hr⟩ := insnTemplates_some h.compilable h.bounded hi
    have hindex' : c.index + ts.length = startOf t c.prog (pc + 1) := by omega
    have hemit := emit_write henc hr himage hcheck h.words_le (by omega)
    obtain ⟨image', hloop, hkept, hholds⟩ := ih
      (h.move (c.index + ts.length) (some (place image c.index ts))) rfl hcheck hdrop hlt hindex'
    refine ⟨image', ?_, ?_, ?_⟩
    · rw [bodyLoop, h.markOffset_eq himage (Nat.le_of_lt hlt) hindex, hts]
      dsimp only
      rw [hemit, hloop]
    · intro p hp
      rw [hkept p (by change p < startOf t c.prog (pc + 1); omega)]
      exact place_of_lt _ _ (by omega)
    · intro q j us hq hj hus
      by_cases heq : q = pc
      · subst heq
        obtain rfl : i = j := Option.some.inj (hi.symm.trans hj)
        obtain rfl : ts = us := Option.some.inj (hts.symm.trans hus)
        rw [← hindex]
        refine (holds_place image c.index ts).congr fun p hp => ?_
        exact hkept p (by change p < startOf t c.prog (q + 1); omega)
      · exact hholds q j us (by omega) hj hus

theorem epilogue_write (h : LaidOut t c) (himage : c.image = some image)
    (hcheck : c.check = false) (hindex : c.index = startOf t c.prog c.prog.length) :
    ∃ image', c.epilogue t = { c with index := totalWords t c.prog, image := some image' } ∧
      (∀ p < startOf t c.prog c.prog.length, image' p = image p) ∧
      Holds image' (startOf t c.prog c.prog.length) [fun _ => .capRetClr] ∧
      Holds image' (startOf t c.prog c.prog.length + 1) (executiveTemplates t) := by
  have hle := h.startOf_le_words (Nat.le_refl _)
  have hlen := length_executive t
  have hclr := emit_write henc inRange_retClr himage hcheck h.words_le (by
    change c.index + 1 ≤ c.words
    omega)
  have hexec := emit_write henc (inRange_executive t)
    (c := { c with
      index := c.index + 1
      image := some (place image c.index [fun _ => .capRetClr]) }) rfl hcheck h.words_le (by
      change c.index + 1 + (executiveTemplates t).length ≤ c.words
      omega)
  refine ⟨place (place image c.index [fun _ => .capRetClr]) (c.index + 1) (executiveTemplates t),
    ?_, ?_, ?_, ?_⟩
  · rw [epilogue, h.markRestrictedExit_eq himage hindex, hclr,
      (h.move _ _).markExecutiveExit_eq rfl (by dsimp only; rw [hindex]; rfl)]
    dsimp only [List.length_singleton]
    rw [hexec, (h.move _ _).markExecutiveWords_eq rfl (by dsimp only; rw [hlen]), totalWords, hlen,
      hindex]
  · intro p hp
    rw [place_of_lt _ _ (by omega)]
    exact place_of_lt _ _ (by omega)
  · rw [← hindex]
    refine (holds_place image c.index [fun _ => .capRetClr]).congr fun p hp => ?_
    exact place_of_lt _ _ hp
  · rw [← hindex]
    exact holds_place _ (c.index + 1) (executiveTemplates t)

/-- The second pass writes the whole image. -/
theorem generate_write (h : LaidOut t c) (himage : c.image = some image)
    (hcheck : c.check = false) :
    ∃ image', c.generate t = { c with index := totalWords t c.prog, image := some image' } ∧
      Written t c image' := by
  have hle := h.startOf_le_words (Nat.le_refl _)
  have hlen := length_prologue t c
  have hstart : startOf t c.prog 0 = prologueLength t := rfl
  have hmono := startOf_mono t c.prog (Nat.zero_le c.prog.length)
  have hprologue := emit_write henc (inRange_prologue t h.bounded) (c := { c with index := 0 })
    himage hcheck h.words_le (by
      change 0 + (prologueTemplates t c).length ≤ c.words
      omega)
  obtain ⟨image₁, hloop, hkept₁, hinsn⟩ := bodyLoop_write henc
    (h.move (prologueLength t) (some (place image 0 (prologueTemplates t c)))) rfl hcheck
    (show c.prog.drop 0 = c.prog from rfl) (Nat.zero_le _) rfl
  obtain ⟨image₂, hepilogue, hkept₂, hclr, hexec⟩ := epilogue_write henc
    (h.move (startOf t c.prog c.prog.length) (some image₁)) rfl hcheck rfl
  refine ⟨image₂, ?_, ?_, ?_, hclr, hexec⟩
  · rw [generate, prologue]
    change ((({ c with index := 0 } : Compiler).emit t (prologueTemplates t c)).body t).epilogue t
      = _
    rw [hprologue]
    dsimp only
    rw [Nat.zero_add, hlen]
    change (bodyLoop t 0 c.prog { c with
      index := prologueLength t
      image := some (place image 0 (prologueTemplates t c)) }).epilogue t = _
    rw [hloop]
    exact hepilogue
  · refine (holds_place image 0 (prologueTemplates t c)).congr fun p hp => ?_
    rw [hkept₂ p (by change p < startOf t c.prog c.prog.length; omega)]
    exact hkept₁ p (by change p < startOf t c.prog 0; omega)
  · intro pc i ts hi hts
    have hlt : pc < c.prog.length := (List.getElem?_eq_some_iff.mp hi).1
    have hnext := startOf_succ t hi
    have hend := startOf_mono t c.prog (show pc + 1 ≤ c.prog.length from hlt)
    obtain ⟨us, hus, hwidth, _⟩ := insnTemplates_some h.compilable h.bounded hi
    obtain rfl : us = ts := Option.some.inj (hus.symm.trans hts)
    refine (hinsn pc i us (Nat.zero_le _) hi hts).congr fun p hp => ?_
    change p < startOf t c.prog pc + us.length at hp
    exact hkept₂ p (by change p < startOf t c.prog c.prog.length; omega)

theorem bodyLoop_check {rest : List BpfInsn} {pc : Nat} (h : LaidOut t c)
    (himage : c.image = some image) (hcheck : c.check = true) (hw : Written t c image)
    (hrest : c.prog.drop pc = rest) (hpc : pc ≤ c.prog.length)
    (hindex : c.index = startOf t c.prog pc) :
    bodyLoop t pc rest c = { c with index := startOf t c.prog c.prog.length } := by
  induction rest generalizing pc c with
  | nil =>
    obtain rfl := rest_nil hrest hpc
    rw [bodyLoop, h.markOffset_eq himage (Nat.le_refl _) hindex, ← hindex]
  | cons i rest ih =>
    obtain ⟨hi, hlt, hdrop⟩ := rest_cons hrest
    have hle := h.startOf_le_words (show pc + 1 ≤ c.prog.length from hlt)
    have hnext := startOf_succ t hi
    obtain ⟨ts, hts, hwidth, hr⟩ := insnTemplates_some h.compilable h.bounded hi
    have hindex' : c.index + ts.length = startOf t c.prog (pc + 1) := by omega
    have hholds := hw.insn pc i ts hi hts
    rw [← hindex] at hholds
    have hemit := emit_check henc hr himage hcheck h.words_le (by omega) hholds
    have hloop := ih (h.move (c.index + ts.length) c.image) himage hcheck
      ⟨hw.prologue, hw.insn, hw.restrictedExit, hw.executive⟩ hdrop hlt hindex'
    rw [bodyLoop, h.markOffset_eq himage (Nat.le_of_lt hlt) hindex, hts]
    dsimp only
    rw [hemit, hloop]

/-- The third pass accepts the image of the second. -/
theorem generate_check (h : LaidOut t c) (himage : c.image = some image)
    (hcheck : c.check = true) (hw : Written t c image) :
    c.generate t = { c with index := totalWords t c.prog } := by
  have hle := h.startOf_le_words (Nat.le_refl _)
  have hlen := length_prologue t c
  have hlen' := length_executive t
  have hstart : startOf t c.prog 0 = prologueLength t := rfl
  have hmono := startOf_mono t c.prog (Nat.zero_le c.prog.length)
  have hprologue := emit_check henc (inRange_prologue t h.bounded) (c := { c with index := 0 })
    himage hcheck h.words_le (by
      change 0 + (prologueTemplates t c).length ≤ c.words
      omega) hw.prologue
  have hw' : ∀ n, Written t { c with index := n } image := fun n =>
    ⟨hw.prologue, hw.insn, hw.restrictedExit, hw.executive⟩
  have hloop := bodyLoop_check henc (h.move (prologueLength t) c.image) himage hcheck (hw' _)
    (show c.prog.drop 0 = c.prog from rfl) (Nat.zero_le _) rfl
  have hl := h.move (startOf t c.prog c.prog.length) c.image
  have hclr := emit_check henc inRange_retClr
    (c := { c with index := startOf t c.prog c.prog.length }) himage hcheck h.words_le (by
      change startOf t c.prog c.prog.length + 1 ≤ c.words
      omega) hw.restrictedExit
  have hexec := emit_check henc (inRange_executive t)
    (c := { c with index := startOf t c.prog c.prog.length + 1 }) himage hcheck h.words_le (by
      change startOf t c.prog c.prog.length + 1 + (executiveTemplates t).length ≤ c.words
      omega) hw.executive
  rw [generate, prologue]
  change ((({ c with index := 0 } : Compiler).emit t (prologueTemplates t c)).body t).epilogue t
    = _
  rw [hprologue]
  dsimp only
  rw [Nat.zero_add, hlen]
  change (bodyLoop t 0 c.prog { c with index := prologueLength t }).epilogue t = _
  rw [hloop]
  change ({ c with index := startOf t c.prog c.prog.length } : Compiler).epilogue t = _
  rw [epilogue, hl.markRestrictedExit_eq himage rfl, hclr]
  dsimp only [List.length_singleton]
  rw [(h.move (startOf t c.prog c.prog.length + 1) c.image).markExecutiveExit_eq himage rfl, hexec]
  dsimp only
  rw [(h.move (startOf t c.prog c.prog.length + 1 + (executiveTemplates t).length)
    c.image).markExecutiveWords_eq himage (by dsimp only; rw [hlen']), totalWords, hlen']

/-- What the three passes leave of the context: the first determines the layout, the second only
writes an image, which is the one that the third accepts. -/
theorem passes_stages (hc : Compilable c) (hb : Bounded c) (himage : c.image = none)
    (hcheck : c.check = false) :
    ∃ c₁ image, c.layoutPass t = c₁ ∧ c₁.writePass t = { c₁ with image := some image } ∧
      ({ c₁ with image := some image } : Compiler).checkPass t =
        { c₁ with image := some image, check := true } ∧
      c₁.prog = c.prog ∧ c₁.operation = c.operation ∧ c₁.failed = c.failed ∧
      c₁.index = totalWords t c.prog ∧
      LaidOut t { c₁ with image := some image, check := true } ∧
      Written t { c₁ with image := some image, check := true } image := by
  obtain ⟨offset, hlayout, hoffset, hbound⟩ := generate_layout henc hc hb himage
  have htotal := totalWords_le t hc.length_le
  have hle := startOf_le (t := t) hc (Nat.le_refl _)
  let c₁ : Compiler := { c with
    offset := offset
    index := totalWords t c.prog
    words := totalWords t c.prog
    restrictedExit := startOf t c.prog c.prog.length
    executiveExit := startOf t c.prog c.prog.length + 1
    executiveWords := executiveLength t }
  have hlaid : LaidOut t c₁ := {
    compilable := ⟨hc.length_le, hc.grammar, hc.operation_le⟩
    bounded := ⟨hbound, by change startOf t c.prog c.prog.length ≤ 1024; omega,
      by change startOf t c.prog c.prog.length + 1 ≤ 1024; omega,
      by change executiveLength t ≤ 1024; omega⟩
    offset := hoffset
    restrictedExit := rfl
    executiveExit := rfl
    executiveWords := rfl
    words := rfl }
  obtain ⟨image, hwrite, hwritten⟩ := generate_write henc
    (hlaid.move c₁.index (some fun _ => .breakFault)) rfl hcheck
  have hchecking : LaidOut t { c₁ with image := some image, check := true } :=
    ⟨⟨hc.length_le, hc.grammar, hc.operation_le⟩,
      ⟨hlaid.bounded.offset, hlaid.bounded.restrictedExit, hlaid.bounded.executiveExit,
        hlaid.bounded.executiveWords⟩, hoffset, rfl, rfl, rfl, rfl⟩
  have hchecked := generate_check henc hchecking rfl rfl
    ⟨hwritten.prologue, hwritten.insn, hwritten.restrictedExit, hwritten.executive⟩
  exact ⟨c₁, image, by rw [layoutPass, hlayout], hwrite, hchecked, rfl, rfl, rfl, rfl, hchecking,
    ⟨hwritten.prologue, hwritten.insn, hwritten.restrictedExit, hwritten.executive⟩⟩

/-- The three passes succeed, and the checked image holds every word of the program at its place. -/
theorem passes_written (hc : Compilable c) (hb : Bounded c) (himage : c.image = none)
    (hcheck : c.check = false) (hfailed : c.failed = false) :
    ∃ c' image, c.passes t = some c' ∧ c'.image = some image ∧ c'.prog = c.prog ∧
      c'.operation = c.operation ∧ LaidOut t c' ∧ Written t c' image := by
  obtain ⟨c₁, image, hfirst, hsecond, hthird, hprog, hoperation, hfailed₁, hindex, hlaid, hwritten⟩ :=
    passes_stages henc hc hb himage hcheck
  have hpos : totalWords t c.prog ≠ 0 := by
    unfold totalWords
    omega
  have hwords : c₁.words = totalWords t c.prog := by
    rw [← hprog]
    exact hlaid.words
  refine ⟨{ c₁ with image := some image, check := true }, image, ?_, rfl, hprog, hoperation, hlaid,
    hwritten⟩
  rw [passes, hfirst]
  dsimp only
  rw [if_neg (by simp [hfailed₁, hfailed, hwords, hpos]), hsecond, hthird,
    if_neg (by simp [hfailed₁, hfailed, hindex, hwords])]

end Compiler

end Cbpf.Jit
