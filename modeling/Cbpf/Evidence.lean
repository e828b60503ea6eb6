import Mathlib
import Cbpf.Lib.FileTree

/-!
# The publication inventory (`tools/verify_evidence.py`)

The check of `evidence/` against its manifest. Manifest and tree are inputs, and so is the hash
function. Names are compared as they are written, paths as they are resolved, and files are looked
for where directories can be listed; what that leaves open is the condition under which a completed
check means what it says.

The file system calls behave as in Python 3.10 to 3.12: `exists` and `is_file` raise permission
errors, `rglob` passes over what it may not list, and `resolve` raises for a loop.
-/

namespace Cbpf.Evidence

open FileTree

/-! ### The manifest -/

/-- `entry["original"]`; the values may be missing. -/
structure Original where
  bytes : Option Int
  sha256 : Option String
  deriving DecidableEq, Repr

/-- `entry["publication"]`. `further` tells whether there are more keys than these two. -/
structure Identity where
  bytes : Int
  sha256 : String
  further : Bool
  deriving DecidableEq, Repr

/-- One of `manifest["files"]`. -/
structure Entry where
  file : String
  original : Option Original
  availability : Option String
  publication : Option Identity
  deriving DecidableEq, Repr

structure Manifest where
  schema : Option String
  files : List Entry
  deriving DecidableEq, Repr

/-- How the check ends early. `raised` is an exception other than `SystemExit`. -/
inductive Failure where
  | schema
  | path (name : String)
  | duplicate (name : String)
  | originalSize (name : String)
  | originalHash (name : String)
  | privateOnly (name : String)
  | missing (name : String)
  | mismatch (label : String)
  | inventory (unexpected missing : Finset Path)
  | raised
  deriving DecidableEq

/-- The text of a `SystemExit`, but for the sorted lists behind the last. -/
def Failure.text : Failure → Option String
  | .schema => some "Unsupported publication manifest schema"
  | .path name => some s!"Invalid publication evidence path: {name}"
  | .duplicate name => some s!"Duplicate publication evidence path: {name}"
  | .originalSize name => some s!"Invalid original size metadata: {name}"
  | .originalHash name => some s!"Invalid original hash metadata: {name}"
  | .privateOnly name => some s!"Invalid private-only evidence record: {name}"
  | .missing name => some s!"Missing publication evidence file: {name}"
  | .mismatch label => some s!"Publication evidence mismatch: {label}"
  | .inventory _ _ => some "Publication inventory mismatch: "
  | .raised => none

/-! ### The check -/

/-- Where the check runs. -/
structure World where
  tree : Tree
  /-- the resolved parent of `tools/` -/
  root : Path
  /-- `hashlib.sha256(data).hexdigest()` -/
  sha256 : Bytes → String

namespace World

variable (w : World)

/-- `root / "evidence"` -/
def evidence : Path := w.root ++ ["evidence"]

/-- `evidence / "publication-manifest.json"` -/
def manifestPath : Path := w.evidence ++ ["publication-manifest.json"]

/-- `root / Path(name)` -/
def candidate (name : String) : Path := (PurePath.ofText name).under w.root

/-- `path.resolve()` -/
def resolve (p : Path) : Option Path := w.tree.resolve p

/-- `verify_identity`, its comparison. -/
def verifyIdentity (data : Bytes) (identity : Identity) : Bool :=
  (data.length : Int) == identity.bytes && w.sha256 data == identity.sha256

end World

/-- `re.fullmatch(r"[0-9a-f]{64}", text)` -/
def isDigest (text : String) : Bool :=
  text.toList.length == 64 &&
    text.toList.all fun c => ('0' ≤ c && c ≤ '9') || ('a' ≤ c && c ≤ 'f')

/-- What is wrong with the metadata of an original. -/
def originalFault (name : String) : Option Original → Option Failure
  | none => none
  | some original =>
    if (original.bytes.getD (-1)) < 0 then some (.originalSize name)
    else if !isDigest (original.sha256.getD "") then some (.originalHash name)
    else none

/-- `current == {key: original[key] for key in ("bytes", "sha256")}` -/
def sameIdentity (current : Identity) (original : Original) : Bool :=
  !current.further && some current.bytes == original.bytes &&
    some current.sha256 == original.sha256

/-- The variables of the loop. -/
structure Tally where
  seen : List String
  published : Finset Path
  unchanged : Nat
  redacted : Nat
  privateOnly : Nat
  deriving DecidableEq

def Tally.empty : Tally := ⟨[], ∅, 0, 0, 0⟩

/-- The checks of one entry. -/
def World.entry (w : World) (q : Tally) (e : Entry) : Except Failure Tally :=
  let relative := PurePath.ofText e.file
  let candidate := w.candidate e.file
  match w.resolve candidate with
  | none => .error .raised
  | some path =>
    if relative.absolute || relative.parts.contains ".." || !w.evidence.isPrefixOf path then
      .error (.path e.file)
    else if q.seen.contains e.file then .error (.duplicate e.file)
    else
      match originalFault e.file e.original with
      | some failure => .error failure
      | none =>
        let q := { q with seen := e.file :: q.seen }
        match e.publication with
        | none =>
          if e.availability != some "private_only" || e.original.isNone then
            .error (.privateOnly e.file)
          else
            match w.tree.pathExists path with
            | none => .error .raised
            | some true => .error (.privateOnly e.file)
            | some false => .ok { q with privateOnly := q.privateOnly + 1 }
        | some current =>
          match w.tree.stat false path with
          | .error .denied => .error .raised
          | .ok (.file data) =>
            if path != candidate then .error (.missing e.file)
            else
              match data with
              | none => .error .raised
              | some data =>
                if !w.verifyIdentity data current then .error (.mismatch e.file)
                else
                  let q := { q with published := insert path q.published }
                  if e.original.any (sameIdentity current) then
                    .ok { q with unchanged := q.unchanged + 1 }
                  else .ok { q with redacted := q.redacted + 1 }
          | _ => .error (.missing e.file)

/-- `path.resolve()` if `path.is_file()`. The outer `none` is an exception. -/
def World.foundAt (w : World) (p : Path) : Option (Option Path) := do
  if ← w.tree.isFile p then return some (← w.resolve p) else return none

/-- `actual`: what the files found below `evidence/` resolve to, without the manifest. -/
def World.actual (w : World) : Option (Finset Path) := do
  let found ← (w.tree.below w.evidence).mapM w.foundAt
  let manifest ← w.resolve w.manifestPath
  return found.reduceOption.toFinset.erase manifest

/-- What the check prints. -/
structure Report where
  published : Nat
  unchanged : Nat
  redacted : Nat
  privateOnly : Nat
  deriving DecidableEq, Repr

/-- `main`, with the manifest that it reads from `manifestPath`. -/
def World.main (w : World) (manifest : Manifest) : Except Failure Report :=
  match w.tree.stat false w.manifestPath with
  | .ok (.file (some _)) =>
    if manifest.schema != some "cbpf-publication-evidence-v1" then .error .schema
    else
      match manifest.files.foldlM w.entry .empty with
      | .error failure => .error failure
      | .ok q =>
        match w.actual with
        | none => .error .raised
        | some actual =>
          if actual ≠ q.published then
            .error (.inventory (actual \ q.published) (q.published \ actual))
          else .ok ⟨q.published.card, q.unchanged, q.redacted, q.privateOnly⟩
  | _ => .error .raised

/-! ### What a completed check should mean -/

/-- The entries that carry a publication record. -/
def Manifest.published (m : Manifest) : List Entry := m.files.filter fun e => e.publication.isSome

/-- The files present under `evidence/`, other than the manifest itself: every path below it at which
there is a file, whoever may see it and however it is reached. -/
def World.Present (w : World) (p : Path) : Prop :=
  p ≠ w.manifestPath ∧
  (∃ rest, rest ≠ [] ∧ (∀ c ∈ rest, isName c = true) ∧ p = w.evidence ++ rest) ∧
  ∃ data, w.tree.stat true p = .ok (.file data)

/-- The manifest is an exact inventory of `evidence/`. -/
structure Inventory (w : World) (m : Manifest) (r : Report) : Prop where
  /-- no file is listed twice -/
  once : (m.published.map fun e => w.candidate e.file).Nodup
  /-- no file is unlisted and none is missing -/
  complete : ∀ p, w.Present p ↔ p ∈ m.published.map fun e => w.candidate e.file
  identity : ∀ e ∈ m.files, ∀ current, e.publication = some current → ∃ data,
    w.tree.stat false (w.candidate e.file) = .ok (.file (some data)) ∧
      (data.length : Int) = current.bytes ∧ w.sha256 data = current.sha256
  /-- no private-only entry names what exists -/
  withheld : ∀ e ∈ m.files, e.publication = none →
    ∀ n, w.tree.stat true (w.candidate e.file) ≠ .ok n
  inside : ∀ e ∈ m.files, ∃ path, w.resolve (w.candidate e.file) = some path ∧ w.evidence <+: path
  total : r.unchanged + r.redacted = Set.ncard {p | w.Present p}

/-- No two published names are spellings of one path. -/
def DistinctPaths (m : Manifest) : Prop :=
  (m.published.map fun e => PurePath.ofText e.file).Nodup

/-- No file is reached through a link, to a file or to a directory, and the manifest's own link leads
to none of them. -/
def Unlinked (w : World) : Prop :=
  ∀ p, w.Present p → Plain w.tree p ∧ w.resolve w.manifestPath ≠ some p

/-- Every directory on the way to a file can be listed. -/
def Listed (w : World) : Prop :=
  ∀ p, w.Present p → ∀ d, w.evidence <+: d → d <+: p → d ≠ p → w.tree.listable d = true

/-- No private-only name leads to something that only the missing right to enter a directory hides. -/
def Unhidden (w : World) (m : Manifest) : Prop :=
  ∀ e ∈ m.files, e.publication = none →
    w.tree.stat false (w.candidate e.file) = .error .denied →
      ∀ n, w.tree.stat true (w.candidate e.file) ≠ .ok n

instance (m : Manifest) : Decidable (DistinctPaths m) :=
  inferInstanceAs (Decidable (List.Nodup _))

/-! ### The loop -/

variable {w : World} {q q' : Tally} {e : Entry} {m : Manifest} {r : Report}

/-- What an entry that was accepted says about the tree. -/
structure Good (w : World) (e : Entry) : Prop where
  relative : (PurePath.ofText e.file).absolute = false
  inside : ∃ path, w.resolve (w.candidate e.file) = some path ∧ w.evidence <+: path
  published : ∀ current, e.publication = some current →
    w.resolve (w.candidate e.file) = some (w.candidate e.file) ∧ ∃ data,
      w.tree.stat false (w.candidate e.file) = .ok (.file (some data)) ∧
        (data.length : Int) = current.bytes ∧ w.sha256 data = current.sha256
  withheld : e.publication = none → ∀ n, w.tree.stat false (w.candidate e.file) ≠ .ok n

/-- A path that resolves to nothing that exists leads to nothing. -/
theorem stat_of_resolve {p path : Path} (h : w.resolve p = some path)
    (hpath : w.tree.pathExists path = some false) (n : Node) : w.tree.stat false p ≠ .ok n := by
  intro hn
  obtain ⟨path', hresolve, harrived, hnode⟩ := resolve_of_stat hn
  obtain rfl : path' = path := Option.some.inj (hresolve.symm.trans h)
  rw [Tree.pathExists, harrived.stat hnode] at hpath
  cases hpath

/-- A private-only entry whose path leads to nothing is good. -/
theorem good_withheld {path : Path} (habsolute : (PurePath.ofText e.file).absolute = false)
    (hresolve : w.resolve (w.candidate e.file) = some path) (hinside : w.evidence <+: path)
    (hnone : e.publication = none) (hpath : w.tree.pathExists path = some false) : Good w e where
  relative := habsolute
  inside := ⟨path, hresolve, hinside⟩
  published := by
    intro current hcurrent
    rw [hnone] at hcurrent
    cases hcurrent
  withheld := fun _ => stat_of_resolve hresolve hpath

/-- An entry whose record describes the file at its own path is good. -/
theorem good_published {current : Identity} {data : Bytes}
    (habsolute : (PurePath.ofText e.file).absolute = false)
    (hresolve : w.resolve (w.candidate e.file) = some (w.candidate e.file))
    (hinside : w.evidence <+: w.candidate e.file) (hcurrent : e.publication = some current)
    (hstat : w.tree.stat false (w.candidate e.file) = .ok (.file (some data)))
    (hverify : w.verifyIdentity data current = true) : Good w e where
  relative := habsolute
  inside := ⟨_, hresolve, hinside⟩
  published := by
    intro current' hcurrent'
    obtain rfl : current = current' := Option.some.inj (hcurrent.symm.trans hcurrent')
    rw [World.verifyIdentity, Bool.and_eq_true, beq_iff_eq, beq_iff_eq] at hverify
    exact ⟨hresolve, data, hstat, hverify⟩
  withheld := by
    intro hnone
    rw [hcurrent] at hnone
    cases hnone

/-- What an accepted entry adds to the tally. -/
theorem entry_ok (h : w.entry q e = .ok q') :
    Good w e ∧ e.file ∉ q.seen ∧ q'.seen = e.file :: q.seen ∧
      ((e.publication = none ∧ q'.published = q.published ∧
        q'.unchanged + q'.redacted = q.unchanged + q.redacted) ∨
      (e.publication.isSome = true ∧ q'.published = insert (w.candidate e.file) q.published ∧
        q'.unchanged + q'.redacted = q.unchanged + q.redacted + 1)) := by
  simp only [World.entry] at h
  split at h
  · cases h
  · next path hresolve =>
    split at h
    · cases h
    · next hpath =>
      simp only [Bool.or_eq_true, not_or, Bool.not_eq_true] at hpath
      obtain ⟨⟨habsolute, _⟩, hwithin⟩ := hpath
      have hinside : w.evidence <+: path := List.isPrefixOf_iff_prefix.mp (by simpa using hwithin)
      split at h
      · cases h
      · next hseen =>
        have hseen : e.file ∉ q.seen := by simpa using hseen
        split at h
        · cases h
        · split at h
          · next hpublication =>
            split at h
            · cases h
            · split at h
              · cases h
              · cases h
              · next hpath =>
                cases h
                have hgood := good_withheld habsolute hresolve hinside hpublication hpath
                exact ⟨hgood, hseen, rfl, .inl ⟨hpublication, rfl, rfl⟩⟩
          · next current hpublication =>
            split at h
            · cases h
            · next data hstat =>
              split at h
              · cases h
              · next hsame =>
                obtain rfl : path = w.candidate e.file := by simpa using hsame
                split at h
                · cases h
                · next data =>
                  split at h
                  · cases h
                  · next hverify =>
                    have hgood := good_published habsolute hresolve hinside hpublication hstat
                      (by simpa using hverify)
                    have hsome : e.publication.isSome = true := by rw [hpublication]; rfl
                    -- the two counters share one sum
                    split at h
                    · cases h
                      refine ⟨hgood, hseen, rfl, .inr ⟨hsome, rfl, ?_⟩⟩
                      simp only
                      omega
                    · cases h
                      exact ⟨hgood, hseen, rfl, .inr ⟨hsome, rfl, rfl⟩⟩
            · cases h

/-- The entry that a failure names. -/
def Failure.entryName : Failure → Option String
  | .path name | .duplicate name | .originalSize name | .originalHash name | .privateOnly name
  | .missing name | .mismatch name => some name
  | .schema | .inventory _ _ | .raised => none

theorem originalFault_name {name : String} {original : Option Original} {failure : Failure}
    (h : originalFault name original = some failure) : failure.entryName = some name := by
  unfold originalFault at h
  split at h
  · cases h
  · split at h
    · cases h
      rfl
    · split at h
      · cases h
        rfl
      · cases h

/-- An entry that is refused is named, unless an exception ends the check. -/
theorem entry_error {failure : Failure} (h : w.entry q e = .error failure) :
    failure = .raised ∨ failure.entryName = some e.file := by
  simp only [World.entry] at h
  split at h
  · cases h
    exact .inl rfl
  · split at h
    · cases h
      exact .inr rfl
    · split at h
      · cases h
        exact .inr rfl
      · split at h
        · next hfault =>
          cases h
          exact .inr (originalFault_name hfault)
        · split at h
          · split at h
            · cases h
              exact .inr rfl
            · split at h
              · cases h
                exact .inl rfl
              · cases h
                exact .inr rfl
              · cases h
          · split at h
            · cases h
              exact .inl rfl
            · split at h
              · cases h
                exact .inr rfl
              · split at h
                · cases h
                  exact .inl rfl
                · split at h
                  · cases h
                    exact .inr rfl
                  · split at h <;> cases h
            · cases h
              exact .inr rfl

/-- The loop ends early at an entry that it names, or by an exception. -/
theorem foldlM_error {files : List Entry} {failure : Failure}
    (h : files.foldlM w.entry q = .error failure) :
    failure = .raised ∨ ∃ e ∈ files, failure.entryName = some e.file := by
  induction files generalizing q with
  | nil => cases h
  | cons e files ih =>
    rw [List.foldlM_cons] at h
    cases hentry : w.entry q e with
    | error failure' =>
      rw [hentry] at h
      cases h
      rcases entry_error hentry with hraised | hname
      · exact .inl hraised
      · exact .inr ⟨e, List.mem_cons_self, hname⟩
    | ok q₁ =>
      rw [hentry] at h
      rcases ih h with hraised | ⟨e', he', hname⟩
      · exact .inl hraised
      · exact .inr ⟨e', List.mem_cons_of_mem _ he', hname⟩

/-- A check that does not complete names the entry that is wrong, or it is the schema, the inventory or
an exception. -/
theorem main_error {failure : Failure} (h : w.main m = .error failure) :
    failure = .schema ∨ failure = .raised ∨
      (∃ unexpected missing, failure = .inventory unexpected missing) ∨
      ∃ e ∈ m.files, failure.entryName = some e.file := by
  simp only [World.main] at h
  split at h
  · split at h
    · cases h
      exact .inl rfl
    · split at h
      · next hfold =>
        cases h
        rcases foldlM_error hfold with hraised | hname
        · exact .inr (.inl hraised)
        · exact .inr (.inr (.inr hname))
      · split at h
        · cases h
          exact .inr (.inl rfl)
        · split at h
          · cases h
            exact .inr (.inr (.inl ⟨_, _, rfl⟩))
          · cases h
  · cases h
    exact .inr (.inl rfl)

/-- The tally after the entries `done`. -/
structure Counted (w : World) (done : List Entry) (q : Tally) : Prop where
  good : ∀ e ∈ done, Good w e
  seen : q.seen = (done.map Entry.file).reverse
  names : (done.map Entry.file).Nodup
  published : q.published =
    ((done.filter fun e => e.publication.isSome).map fun e => w.candidate e.file).toFinset
  total : q.unchanged + q.redacted = (done.filter fun e => e.publication.isSome).length

theorem Counted.entry {done : List Entry} (h : Counted w done q) (hentry : w.entry q e = .ok q') :
    Counted w (done ++ [e]) q' := by
  obtain ⟨hgood, hfresh, hseen, hcases⟩ := entry_ok hentry
  have hnames : e.file ∉ done.map Entry.file := by
    rwa [h.seen, List.mem_reverse] at hfresh
  refine ⟨?_, ?_, ?_, ?_, ?_⟩
  · intro e' he'
    rcases List.mem_append.mp he' with he' | he'
    · exact h.good e' he'
    · rwa [List.mem_singleton.mp he']
  · rw [hseen, h.seen, List.map_append, List.reverse_append]
    rfl
  · rw [List.map_append]
    exact h.names.append (List.nodup_singleton _) (List.disjoint_singleton.mpr hnames)
  · rcases hcases with ⟨hnone, hpublished, _⟩ | ⟨hsome, hpublished, _⟩
    · rw [hpublished, h.published, List.filter_append]
      simp [hnone]
    · rw [hpublished, h.published, List.filter_append]
      simp [hsome, Finset.union_comm]
  · rcases hcases with ⟨hnone, _, htotal⟩ | ⟨hsome, _, htotal⟩
    · rw [htotal, h.total, List.filter_append]
      simp [hnone]
    · rw [htotal, h.total, List.filter_append]
      simp [hsome]

theorem Counted.foldlM {done rest : List Entry} (h : Counted w done q)
    (hfold : rest.foldlM w.entry q = .ok q') : Counted w (done ++ rest) q' := by
  induction rest generalizing done q with
  | nil =>
    cases hfold
    rwa [List.append_nil]
  | cons e rest ih =>
    rw [List.foldlM_cons] at hfold
    cases hentry : w.entry q e with
    | error failure =>
      rw [hentry] at hfold
      cases hfold
    | ok q₁ =>
      rw [hentry] at hfold
      rw [List.append_cons]
      exact ih (h.entry hentry) hfold

/-! ### The comparison with the tree -/

theorem isSome_of_mapM {α β : Type} {f : α → Option β} {l : List α} {l' : List β}
    (h : l.mapM f = some l') {a : α} (ha : a ∈ l) : ∃ b, f a = some b := by
  induction l generalizing l' with
  | nil => cases ha
  | cons a' l ih =>
    rw [List.mapM_cons] at h
    obtain ⟨b', hb', hrest⟩ := Option.bind_eq_some_iff.mp h
    obtain ⟨l'', hl'', _⟩ := Option.bind_eq_some_iff.mp hrest
    rcases List.mem_cons.mp ha with rfl | ha
    · exact ⟨b', hb'⟩
    · exact ih hl'' ha

theorem mem_mapM {α β : Type} {f : α → Option β} {l : List α} {l' : List β}
    (h : l.mapM f = some l') (b : β) : b ∈ l' ↔ ∃ a ∈ l, f a = some b := by
  induction l generalizing l' with
  | nil =>
    cases h
    simp
  | cons a l ih =>
    rw [List.mapM_cons] at h
    obtain ⟨b', hb', hrest⟩ := Option.bind_eq_some_iff.mp h
    obtain ⟨l'', hl'', hcons⟩ := Option.bind_eq_some_iff.mp hrest
    cases hcons
    rw [List.mem_cons, ih hl'', List.exists_mem_cons_iff, hb', Option.some.injEq, eq_comm]

/-- What the check finds at a path: nothing, unless there is a file that it can see. -/
theorem foundAt_eq {p : Path} {found : Option Path} (h : w.foundAt p = some found) :
    (w.tree.isFile p = some false ∧ found = none) ∨
    ∃ c, w.tree.isFile p = some true ∧ w.resolve p = some c ∧ found = some c := by
  unfold World.foundAt at h
  obtain ⟨b, hb, hrest⟩ := Option.bind_eq_some_iff.mp h
  cases b with
  | false =>
    cases hrest
    exact .inl ⟨hb, rfl⟩
  | true =>
    obtain ⟨c, hc, hfound⟩ := Option.bind_eq_some_iff.mp hrest
    cases hfound
    exact .inr ⟨c, hb, hc, rfl⟩

/-- A path of `actual` is where a file below `evidence/` leads, and not the manifest. -/
theorem mem_actual {actual : Finset Path} (h : w.actual = some actual) (c : Path) :
    c ∈ actual ↔ (∃ p ∈ w.tree.below w.evidence, w.foundAt p = some (some c)) ∧
      w.resolve w.manifestPath ≠ some c := by
  obtain ⟨found, hfound, hrest⟩ := Option.bind_eq_some_iff.mp h
  obtain ⟨manifest, hmanifest, hactual⟩ := Option.bind_eq_some_iff.mp hrest
  cases hactual
  rw [Finset.mem_erase, List.mem_toFinset, List.reduceOption_mem_iff, mem_mapM hfound (some c),
    hmanifest, and_comm]
  refine and_congr Iff.rfl (not_congr ?_)
  rw [Option.some.injEq, eq_comm]

/-- The comparison of a completed check has looked at every path below `evidence/`. -/
theorem foundAt_isSome {actual : Finset Path} (h : w.actual = some actual) {p : Path}
    (hp : p ∈ w.tree.below w.evidence) : ∃ found, w.foundAt p = some found := by
  obtain ⟨found, hfound, _⟩ := Option.bind_eq_some_iff.mp h
  exact isSome_of_mapM hfound hp

/-- What a completed check has established. -/
structure Completed (w : World) (m : Manifest) (q : Tally) : Prop where
  manifest : ∃ data, w.tree.stat false w.manifestPath = .ok (.file data)
  counted : Counted w m.files q
  actual : w.actual = some q.published

namespace Completed

/-- The published paths are what the files below `evidence/` resolve to, the manifest apart. -/
theorem mem_published (h : Completed w m q) (c : Path) :
    (∃ e ∈ m.published, w.candidate e.file = c) ↔
      (∃ p ∈ w.tree.below w.evidence, w.foundAt p = some (some c)) ∧
        w.resolve w.manifestPath ≠ some c := by
  rw [← mem_actual h.actual c, h.counted.published, List.mem_toFinset, List.mem_map]
  rfl

/-- `evidence/` leads to a directory that may be entered. -/
theorem evidence (h : Completed w m q) : ∃ d, w.tree.walk false maxLinks [] w.evidence = .ok d ∧
    (∃ k, Leads w.tree false [] w.evidence d k) ∧ Enter w.tree false d := by
  obtain ⟨data, hmanifest⟩ := h.manifest
  obtain ⟨_, k, hk, hleads, _⟩ := stat_ok.mp hmanifest
  obtain ⟨d, k₁, k₂, hfirst, hlast, hsum⟩ := hleads.split rfl
  refine ⟨d, walk_of_leads hfirst (by omega), ⟨k₁, hfirst⟩, ?_⟩
  rcases hlast.cons_cases with ⟨hno, _⟩ | ⟨hno, _⟩ | ⟨henter, _⟩
  · exact absurd hno (by decide)
  · exact absurd hno (by decide)
  · exact henter

/-- A published file is where its entry says. -/
theorem published_at (h : Completed w m q) (he : e ∈ m.published) :
    ∃ data, w.tree.stat false (w.candidate e.file) = .ok (.file data) ∧
      w.tree.lookup (w.candidate e.file) = some (.file data) ∧ Plain w.tree (w.candidate e.file) ∧
      w.evidence <+: w.candidate e.file := by
  obtain ⟨hmem, hsome⟩ := List.mem_filter.mp he
  obtain ⟨current, hcurrent⟩ := Option.isSome_iff_exists.mp hsome
  have hgood := h.counted.good e hmem
  obtain ⟨hresolve, data, hstat, _⟩ := hgood.published current hcurrent
  obtain ⟨path, hpath, hinside⟩ := hgood.inside
  obtain rfl := Option.some.inj (hpath.symm.trans hresolve)
  obtain ⟨c, hc, harrived, hnode⟩ := resolve_of_stat hstat
  obtain rfl := Option.some.inj (hresolve.symm.trans hc)
  exact ⟨_, hstat, hnode, harrived.plain, hinside⟩

/-- A published file is one of those under `evidence/`. -/
theorem present_of_published (h : Completed w m q) (he : e ∈ m.published) :
    w.Present (w.candidate e.file) := by
  obtain ⟨data, hstat, hnode, hplain, rest, hrest⟩ := h.published_at he
  refine ⟨?_, ⟨rest, ?_, ?_, hrest.symm⟩, data, stat_all nofun hstat⟩
  · intro heq
    have hne := ((h.mem_published _).mp ⟨e, he, rfl⟩).2
    rw [← heq] at hne
    exact hne hplain.resolve
  · rintro rfl
    rw [List.append_nil] at hrest
    obtain ⟨d, _, ⟨k, hleads⟩, listed, entered, hdir, _⟩ := h.evidence
    rw [hrest] at hleads
    obtain rfl : d = w.candidate e.file := hleads.eq_of_plain hplain
    rw [hnode] at hdir
    cases hdir
  · intro c hc
    exact hplain.names c (hrest ▸ List.mem_append_right _ hc)

/-- A file that is reached without links, through directories that can be listed, is found. -/
theorem found_of_present {p : Path} (h : Completed w m q) (hp : w.Present p)
    (hplain : Plain w.tree p)
    (hlisted : ∀ d, w.evidence <+: d → d <+: p → d ≠ p → w.tree.listable d = true) :
    p ∈ w.tree.below w.evidence ∧ w.foundAt p = some (some p) := by
  obtain ⟨_, ⟨rest, hrest, _, rfl⟩, data, hstat⟩ := hp
  obtain ⟨q', k, _, hleads, hnode⟩ := stat_ok.mp hstat
  obtain rfl := hleads.eq_of_plain hplain
  have hbelow : w.evidence ++ rest ∈ w.tree.below w.evidence := by
    obtain ⟨d, hwalk, ⟨k', hevidence⟩, _⟩ := h.evidence
    obtain rfl : d = w.evidence :=
      hevidence.eq_of_plain (hplain.mono (List.prefix_append _ _))
    refine mem_below.mpr ⟨w.evidence, w.evidence ++ rest, hwalk, mem_of_lookup hnode ?_,
      List.prefix_append _ _, ?_, hlisted, ?_⟩
    · simp [hrest]
    · simp [hrest]
    · rw [List.drop_left]
  refine ⟨hbelow, ?_⟩
  obtain ⟨found, hfound⟩ := foundAt_isSome h.actual hbelow
  rcases foundAt_eq hfound with ⟨hno, _⟩ | ⟨c, _, hresolve, rfl⟩
  · -- what may be seen of it is a file
    unfold Tree.isFile at hno
    split at hno
    · cases hno
    · cases hno
    · next hfile hdenied =>
      have hall := stat_all hdenied rfl
      rw [hstat] at hall
      exact absurd hall.symm (hfile data)
  · have hself : w.resolve (w.evidence ++ rest) = some (w.evidence ++ rest) := hplain.resolve
    obtain rfl := Option.some.inj (hself.symm.trans hresolve)
    exact hfound

/-- Under the condition, what was checked is an exact inventory. -/
theorem inventory (h : Completed w m q) (hdistinct : DistinctPaths m) (hunlinked : Unlinked w)
    (hlisted : Listed w) (hunhidden : Unhidden w m)
    (hr : r.unchanged + r.redacted = q.unchanged + q.redacted) : Inventory w m r := by
  have honce : (m.published.map fun e => w.candidate e.file).Nodup := by
    have hmap : m.published.map (fun e => w.candidate e.file) =
        (m.published.map fun e => PurePath.ofText e.file).map (PurePath.under w.root) := by
      rw [List.map_map]
      rfl
    rw [hmap]
    refine List.Nodup.map_on ?_ hdistinct
    intro a ha b hb hab
    obtain ⟨ea, hea, rfl⟩ := List.mem_map.mp ha
    obtain ⟨eb, heb, rfl⟩ := List.mem_map.mp hb
    exact PurePath.under_inj (h.counted.good ea (List.mem_filter.mp hea).1).relative
      (h.counted.good eb (List.mem_filter.mp heb).1).relative hab
  have hcomplete : ∀ p, w.Present p ↔ p ∈ m.published.map fun e => w.candidate e.file := by
    intro p
    rw [List.mem_map]
    constructor
    · intro hp
      obtain ⟨hplain, hmanifest⟩ := hunlinked p hp
      obtain ⟨hbelow, hfound⟩ := h.found_of_present hp hplain (hlisted p hp)
      exact (h.mem_published p).mpr ⟨⟨p, hbelow, hfound⟩, hmanifest⟩
    · rintro ⟨e, he, rfl⟩
      exact h.present_of_published he
  have hfiles : {p | w.Present p} = ↑(m.published.map fun e => w.candidate e.file).toFinset := by
    ext p
    rw [Finset.mem_coe, List.mem_toFinset]
    exact hcomplete p
  refine ⟨honce, hcomplete, ?_, ?_, ?_, ?_⟩
  · intro e he current hcurrent
    exact ((h.counted.good e he).published current hcurrent).2
  · intro e he hnone n hn
    by_cases hdenied : w.tree.stat false (w.candidate e.file) = .error .denied
    · exact hunhidden e he hnone hdenied n hn
    · have hall := stat_all hdenied rfl
      rw [hn] at hall
      exact (h.counted.good e he).withheld hnone n hall.symm
  · intro e he
    exact (h.counted.good e he).inside
  · rw [hr, h.counted.total, hfiles, Set.ncard_coe_finset, List.toFinset_card_of_nodup honce,
      List.length_map]
    rfl

end Completed

end Cbpf.Evidence
