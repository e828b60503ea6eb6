import Mathlib

/-!
# Trees of files with symbolic links and permissions

A path is the list of its names from the root on. The kernel walks a path name by name: it looks names
up only in directories that may be entered, and it follows a bounded number of links. Resolving a
path follows the links that can be seen and keeps what cannot, so it reads more than the kernel
walks. `Leads` is the walk as a relation, with the links it follows counted.
-/

namespace FileTree

/-- An absolute path, by its names. -/
abbrev Path := List String

abbrev Bytes := List (BitVec 8)

inductive Node where
  /-- a file, and its bytes when they may be read -/
  | file (data : Option Bytes)
  /-- a directory: may its entries be listed, and may names be looked up in it? -/
  | dir (listed entered : Bool)
  | link (text : String)
  | special
  deriving DecidableEq, Repr

/-! ### Texts of paths -/

/-- The names between the slashes, empty ones included. -/
def textNames (text : String) : List String := (text.toList.splitOn '/').map String.ofList

def isAbsolute (text : String) : Bool := text.toList.head? == some '/'

/-- The text of a path, read: is it absolute, and its names. -/
@[ext]
structure PurePath where
  absolute : Bool
  parts : List String
  deriving DecidableEq, Repr

/-- Empty names and `.` are dropped, `..` is kept. -/
def PurePath.ofText (text : String) : PurePath where
  absolute := isAbsolute text
  parts := (textNames text).filter fun c => c != "" && c != "."

/-- `base / path`. -/
def PurePath.under (base : Path) (path : PurePath) : Path :=
  if path.absolute then path.parts else base ++ path.parts

/-- `os.path.normpath`: names are dropped and `..` applied without a look at the tree. -/
def normalize : Path → List String → Path
  | base, [] => base
  | base, c :: rest =>
    if c == "" || c == "." then normalize base rest
    else if c == ".." then normalize base.dropLast rest
    else normalize (base ++ [c]) rest

/-- Relative paths lead to one place only when they are the same path. -/
theorem PurePath.under_inj {base : Path} {a b : PurePath} (ha : a.absolute = false)
    (hb : b.absolute = false) (h : a.under base = b.under base) : a = b := by
  rw [PurePath.under, PurePath.under, ha, hb] at h
  exact PurePath.ext (ha.trans hb.symm) (List.append_cancel_left h)

/-! ### Trees -/

def hasNul (c : String) : Bool := c.toList.contains (Char.ofNat 0)

/-- Is `c` the name of an entry of a directory? -/
def isName (c : String) : Bool :=
  c != "" && c != "." && c != ".." && !c.toList.contains '/' && !hasNul c

/-- The node at a path, among the nodes listed with their paths. The root is a directory. -/
def find (nodes : List (Path × Node)) (p : Path) : Option Node :=
  if p = [] then some (.dir true true) else nodes.lookup p

def Node.isDir : Node → Bool
  | .dir _ _ => true
  | _ => false

/-- Every node has a name and lies in a directory, and no path has two nodes. -/
def wellFormed (nodes : List (Path × Node)) : Bool :=
  decide (nodes.map Prod.fst).Nodup && nodes.all fun (p, _) =>
    p != [] && p.all isName && (find nodes p.dropLast).any Node.isDir

/-- A tree, by its nodes. -/
structure Tree where
  nodes : List (Path × Node)
  ok : wellFormed nodes = true

/-- How a walk ends without a path: something is missing or no directory, there are too many links,
or a directory may not be entered. -/
inductive Fault where
  | absent
  | loop
  | denied
  deriving DecidableEq, Repr

/-- How many links the kernel follows in one walk. -/
def maxLinks : Nat := 40

namespace Tree

variable (t : Tree)

/-- The node at a path that holds no link and no `..`. -/
def lookup (p : Path) : Option Node := find t.nodes p

/-! ### The kernel's walk -/

/-- Walk along the names from `base` on; `follow` goes on behind a link. With `all`, every directory
may be entered. An empty name stands for a slash at the end: it asks for a directory. -/
def walkWith (all : Bool) (follow : Path → List String → Except Fault Path) :
    Path → List String → Except Fault Path
  | base, [] => .ok base
  | base, c :: rest =>
    match t.lookup base with
    | some (.dir _ entered) =>
      if c == "" then walkWith all follow base rest
      else if !(all || entered) then .error .denied
      else if c == "." then walkWith all follow base rest
      else if c == ".." then walkWith all follow base.dropLast rest
      else
        match t.lookup (base ++ [c]) with
        | none => .error .absent
        | some (.link text) => follow (if isAbsolute text then [] else base) (textNames text ++ rest)
        | some _ => walkWith all follow (base ++ [c]) rest
    | _ => .error .absent

/-- A walk that follows at most the given number of links. -/
def walk (all : Bool) : Nat → Path → List String → Except Fault Path
  | 0 => t.walkWith all fun _ _ => .error .loop
  | n + 1 => t.walkWith all (walk all n)

/-- The node that a path leads to. -/
def stat (all : Bool) (p : Path) : Except Fault Node :=
  match t.walk all maxLinks [] p with
  | .error fault => .error fault
  | .ok q =>
    match t.lookup q with
    | some n => .ok n
    | none => .error .absent

/-- Is there anything? Permission errors are raised (`none`), all others say no. -/
def pathExists (p : Path) : Option Bool :=
  match t.stat false p with
  | .ok _ => some true
  | .error .denied => none
  | .error _ => some false

/-- Is it a file? Permission errors are raised (`none`), all others say no. -/
def isFile (p : Path) : Option Bool :=
  match t.stat false p with
  | .ok (.file _) => some true
  | .error .denied => none
  | _ => some false

/-! ### Resolving a path -/

/-- May names be looked up in `base`, coming from the root? -/
def mayEnter (base : Path) : Bool :=
  base.inits.all fun d =>
    match t.lookup d with
    | some (.dir _ entered) => entered
    | _ => false

/-- The entry `c` of `base`, as far as it can be seen. -/
def lstat (base : Path) (c : String) : Option Node :=
  if t.mayEnter base then t.lookup (base ++ [c]) else none

/-- A path of which `rest` was not resolved: a rest that starts with a slash stands alone. -/
def unresolved (base : Path) : List String → List String
  | "" :: c :: rest => c :: rest
  | rest => base ++ rest

/-- `os.path.realpath`: `seen` are the links that are being resolved, and `nested` resolves the text of
one more. The second component tells that there was no loop. -/
def joinWith (nested : List Path → Path → List String → List String × Bool) (seen : List Path) :
    Path → List String → List String × Bool
  | base, [] => (base, true)
  | base, c :: rest =>
    if c == "" || c == "." then joinWith nested seen base rest
    else if c == ".." then joinWith nested seen base.dropLast rest
    else
      match t.lstat base c with
      | some (.link text) =>
        if seen.contains (base ++ [c]) then (unresolved (base ++ [c]) rest, false)
        else
          match nested ((base ++ [c]) :: seen) (if isAbsolute text then [] else base)
            (textNames text) with
          | (q, true) => joinWith nested seen q rest
          | (q, false) => (unresolved q rest, false)
      | _ => joinWith nested seen (base ++ [c]) rest

/-- Links nested in links, at most as many as there are nodes. -/
def joinReal : Nat → List Path → Path → List String → List String × Bool
  | 0 => t.joinWith fun _ base rest => (base ++ rest, false)
  | n + 1 => t.joinWith (joinReal n)

/-- Every link that can be seen is followed and every `..` applied; behind a loop that is done by the
text alone. `none` when the result is a loop to the kernel, or when a name is none. -/
def resolve (p : Path) : Option Path :=
  let q := normalize [] (t.joinReal t.nodes.length [] [] p).1
  if p.any hasNul || t.stat false q == .error .loop then none else some q

/-! ### Listing a directory -/

/-- May the entries of a directory be listed? -/
def listable (d : Path) : Bool :=
  match t.lookup d with
  | some (.dir listed _) => listed
  | _ => false

/-- Everything found below the directory that `base` leads to, under the name `base`. Links to
directories and directories that may not be listed are not descended into. -/
def below (base : Path) : List Path :=
  match t.walk false maxLinks [] base with
  | .error _ => []
  | .ok q => t.nodes.filterMap fun (p, _) =>
    if q <+: p ∧ p ≠ q ∧ (p.inits.all fun d => !q.isPrefixOf d || d == p || t.listable d) = true then
      some (base ++ p.drop q.length)
    else none

end Tree

/-! ### Nodes -/

section Nodes

variable {t : Tree} {p : Path} {c : String} {n : Node}

theorem mem_of_lookup (h : t.lookup p = some n) (hp : p ≠ []) : p ∈ t.nodes.map Prod.fst := by
  rw [Tree.lookup, find, if_neg hp] at h
  obtain ⟨before, after, hnodes, _⟩ := List.lookup_eq_some_iff.mp h
  rw [hnodes]
  exact List.mem_map.mpr ⟨(p, n), by simp, rfl⟩

theorem node_ok (hp : p ∈ t.nodes.map Prod.fst) :
    p ≠ [] ∧ (∀ c ∈ p, isName c = true) ∧ (t.lookup p.dropLast).any Node.isDir = true := by
  obtain ⟨⟨q, m⟩, hmem, rfl⟩ := List.mem_map.mp hp
  have hok := t.ok
  rw [wellFormed, Bool.and_eq_true, List.all_eq_true] at hok
  have hnode := hok.2 _ hmem
  simp only [Bool.and_eq_true, bne_iff_ne, ne_eq, List.all_eq_true] at hnode
  exact ⟨hnode.1.1, hnode.1.2, hnode.2⟩

/-- Whatever exists has names. -/
theorem names_of_lookup (h : t.lookup p = some n) : ∀ c ∈ p, isName c = true := by
  by_cases hp : p = []
  · subst hp
    exact fun c hc => absurd hc List.not_mem_nil
  · exact (node_ok (mem_of_lookup h hp)).2.1

theorem isName_ne (h : isName c = true) : c ≠ "" ∧ c ≠ "." ∧ c ≠ ".." ∧ hasNul c = false := by
  simp only [isName, Bool.and_eq_true, bne_iff_ne, ne_eq, Bool.not_eq_true'] at h
  exact ⟨h.1.1.1.1, h.1.1.1.2, h.1.1.2, h.2⟩

theorem normalize_of_names {base rest : Path} (h : ∀ c ∈ rest, isName c = true) :
    normalize base rest = base ++ rest := by
  induction rest generalizing base with
  | nil => rw [normalize, List.append_nil]
  | cons c rest ih =>
    obtain ⟨hslash, hdot, hup, _⟩ := isName_ne (h c List.mem_cons_self)
    have hrest := @ih (base ++ [c]) fun d hd => h d (List.mem_cons_of_mem _ hd)
    rw [normalize, if_neg (by simp [hslash, hdot]), if_neg (by simpa), hrest, ← List.append_cons]

/-- A path of names without links on the way. -/
structure Plain (t : Tree) (p : Path) : Prop where
  names : ∀ c ∈ p, isName c = true
  links : ∀ q, q <+: p → ∀ text, t.lookup q ≠ some (.link text)

theorem Plain.nil : Plain t [] where
  names c hc := absurd hc List.not_mem_nil
  links := by
    intro q hq text
    rw [List.prefix_nil.mp hq]
    nofun

theorem Plain.mono {q : Path} (h : Plain t p) (hq : q <+: p) : Plain t q where
  names c hc := h.names c (hq.subset hc)
  links q' hq' := h.links q' (hq'.trans hq)

theorem Plain.snoc (h : Plain t p) (hc : isName c = true)
    (hlink : ∀ text, t.lookup (p ++ [c]) ≠ some (.link text)) : Plain t (p ++ [c]) where
  names d hd := by
    rcases List.mem_append.mp hd with hd | hd
    · exact h.names d hd
    · rwa [List.mem_singleton.mp hd]
  links q hq := by
    rcases List.prefix_concat_iff.mp hq with rfl | hq
    · exact hlink
    · exact h.links q hq

end Nodes

/-! ### The walk as a relation -/

/-- Names may be looked up in `base`. -/
def Enter (t : Tree) (all : Bool) (base : Path) : Prop :=
  ∃ listed entered, t.lookup base = some (.dir listed entered) ∧ (all || entered) = true

/-- Where the text of a link in `base` starts. -/
def startOf (base : Path) (text : String) : Path := if isAbsolute text then [] else base

/-- The names `rest` lead from `base` to `q`, through `k` links. -/
inductive Leads (t : Tree) (all : Bool) : Path → List String → Path → Nat → Prop
  | done {base : Path} : Leads t all base [] base 0
  | slash {base q : Path} {rest : List String} {k : Nat} {listed entered : Bool} :
      t.lookup base = some (.dir listed entered) → Leads t all base rest q k →
      Leads t all base ("" :: rest) q k
  | dot {base q : Path} {rest : List String} {k : Nat} : Enter t all base →
      Leads t all base rest q k → Leads t all base ("." :: rest) q k
  | up {base q : Path} {rest : List String} {k : Nat} : Enter t all base →
      Leads t all base.dropLast rest q k → Leads t all base (".." :: rest) q k
  | link {base q : Path} {c text : String} {rest : List String} {k : Nat} : Enter t all base →
      c ≠ "" → c ≠ "." → c ≠ ".." → t.lookup (base ++ [c]) = some (.link text) →
      Leads t all (startOf base text) (textNames text ++ rest) q k →
      Leads t all base (c :: rest) q (k + 1)
  | step {base q : Path} {c : String} {rest : List String} {k : Nat} {n : Node} :
      Enter t all base → c ≠ "" → c ≠ "." → c ≠ ".." → t.lookup (base ++ [c]) = some n →
      (∀ text, n ≠ .link text) → Leads t all (base ++ [c]) rest q k →
      Leads t all base (c :: rest) q k

section Walk

variable {t : Tree} {all : Bool} {base q : Path} {rest : List String} {n k : Nat} {m : Node}

/-- What goes on behind a link, with `n` more links allowed. -/
def followOf (t : Tree) (all : Bool) : Nat → Path → List String → Except Fault Path
  | 0 => fun _ _ => .error .loop
  | n + 1 => t.walk all n

theorem walk_eq (n : Nat) : t.walk all n = t.walkWith all (followOf t all n) := by
  cases n <;> rfl

theorem leads_of_walkWith {follow : Path → List String → Except Fault Path}
    (hfollow : ∀ base rest, follow base rest = .ok q →
      ∃ k < n, Leads t all base rest q k)
    (h : t.walkWith all follow base rest = .ok q) : ∃ k ≤ n, Leads t all base rest q k := by
  induction rest generalizing base with
  | nil =>
    cases h
    exact ⟨0, Nat.zero_le n, .done⟩
  | cons c rest ih =>
    rw [Tree.walkWith] at h
    split at h
    · next listed entered hdir =>
      split at h
      · next hslash =>
        obtain ⟨k, hk, hleads⟩ := ih h
        obtain rfl : c = "" := by simpa using hslash
        exact ⟨k, hk, .slash hdir hleads⟩
      · next hslash =>
        split at h
        · cases h
        · next henter =>
          have henter : Enter t all base :=
            ⟨listed, entered, hdir, by simpa only [Bool.not_eq_true', Bool.not_eq_false] using henter⟩
          split at h
          · next hdot =>
            obtain ⟨k, hk, hleads⟩ := ih h
            obtain rfl : c = "." := by simpa using hdot
            exact ⟨k, hk, .dot henter hleads⟩
          · next hdot =>
            split at h
            · next hup =>
              obtain ⟨k, hk, hleads⟩ := ih h
              obtain rfl : c = ".." := by simpa using hup
              exact ⟨k, hk, .up henter hleads⟩
            · next hup =>
              have hslash : c ≠ "" := by simpa using hslash
              have hdot : c ≠ "." := by simpa using hdot
              have hup : c ≠ ".." := by simpa using hup
              split at h
              · cases h
              · next text hlink =>
                obtain ⟨k, hk, hleads⟩ := hfollow _ _ h
                exact ⟨k + 1, hk, .link henter hslash hdot hup hlink hleads⟩
              · next node hnone hnode =>
                obtain ⟨k, hk, hleads⟩ := ih h
                refine ⟨k, hk, .step henter hslash hdot hup hnode ?_ hleads⟩
                rintro text rfl
                exact hnone text rfl
    · cases h

/-- A walk that succeeds follows no more links than it may. -/
theorem leads_of_walk (h : t.walk all n base rest = .ok q) : ∃ k ≤ n, Leads t all base rest q k := by
  induction n generalizing base rest with
  | zero =>
    rw [walk_eq] at h
    refine leads_of_walkWith (fun _ _ hfollow => ?_) h
    cases hfollow
  | succ n ih =>
    refine leads_of_walkWith (fun _ _ hfollow => ?_) h
    obtain ⟨k, hk, hleads⟩ := ih hfollow
    exact ⟨k, Nat.lt_succ_of_le hk, hleads⟩

theorem walk_of_leads (h : Leads t all base rest q k) (hk : k ≤ n) :
    t.walk all n base rest = .ok q := by
  induction h generalizing n with
  | done => rw [walk_eq, Tree.walkWith]
  | slash hdir _ ih =>
    have hnext := ih hk
    rw [walk_eq] at hnext ⊢
    simp only [Tree.walkWith, hdir, beq_self_eq_true, if_true]
    exact hnext
  | dot henter _ ih =>
    obtain ⟨listed, entered, hdir, hok⟩ := henter
    have hnext := ih hk
    rw [walk_eq] at hnext ⊢
    simp [Tree.walkWith, hdir, hok, hnext]
  | up henter _ ih =>
    obtain ⟨listed, entered, hdir, hok⟩ := henter
    have hnext := ih hk
    rw [walk_eq] at hnext ⊢
    simp [Tree.walkWith, hdir, hok, hnext]
  | link henter hslash hdot hup hlink _ ih =>
    obtain ⟨listed, entered, hdir, hok⟩ := henter
    obtain ⟨n, rfl⟩ := Nat.exists_eq_succ_of_ne_zero (Nat.ne_zero_of_lt hk)
    have hnext := ih (Nat.le_of_succ_le_succ hk)
    rw [startOf] at hnext
    rw [walk_eq]
    simp [Tree.walkWith, hdir, hok, hslash, hdot, hup, hlink, followOf, hnext]
  | @step base q c rest k node henter hslash hdot hup hnode hlink _ ih =>
    obtain ⟨listed, entered, hdir, hok⟩ := henter
    have hnext := ih hk
    rw [walk_eq] at hnext ⊢
    cases node with
    | link text => exact absurd rfl (hlink text)
    | file data => simp [Tree.walkWith, hdir, hok, hslash, hdot, hup, hnode, hnext]
    | dir l e => simp [Tree.walkWith, hdir, hok, hslash, hdot, hup, hnode, hnext]
    | special => simp [Tree.walkWith, hdir, hok, hslash, hdot, hup, hnode, hnext]

theorem stat_ok : t.stat all base = .ok m ↔
    ∃ q k, k ≤ maxLinks ∧ Leads t all [] base q k ∧ t.lookup q = some m := by
  unfold Tree.stat
  constructor
  · intro h
    split at h
    · cases h
    · next q hwalk =>
      split at h
      · next hnode =>
        cases h
        obtain ⟨k, hk, hleads⟩ := leads_of_walk hwalk
        exact ⟨q, k, hk, hleads, hnode⟩
      · cases h
  · rintro ⟨q, k, hk, hleads, hnode⟩
    rw [walk_of_leads hleads hk]
    dsimp only
    rw [hnode]

theorem walkWith_all {follow follow' : Path → List String → Except Fault Path}
    {r : Except Fault Path} (hr : r ≠ .error .denied)
    (hfollow : ∀ base rest, follow base rest = r → follow' base rest = r)
    (h : t.walkWith false follow base rest = r) : t.walkWith true follow' base rest = r := by
  induction rest generalizing base with
  | nil => exact h
  | cons c rest ih =>
    rw [Tree.walkWith] at h ⊢
    split at h
    · next listed entered hdir =>
      split at h
      · next hslash =>
        rw [if_pos hslash]
        exact ih h
      · next hslash =>
        rw [if_neg hslash]
        split at h
        · exact absurd h.symm hr
        · rw [if_neg (by simp)]
          split at h
          · next hdot =>
            rw [if_pos hdot]
            exact ih h
          · next hdot =>
            rw [if_neg hdot]
            split at h
            · next hup =>
              rw [if_pos hup]
              exact ih h
            · next hup =>
              rw [if_neg hup]
              split at h
              · exact h
              · exact hfollow _ _ h
              · exact ih h
    · exact h

/-- More permissions change nothing but what was denied. -/
theorem walk_all {r : Except Fault Path} (hr : r ≠ .error .denied)
    (h : t.walk false n base rest = r) : t.walk true n base rest = r := by
  induction n generalizing base rest with
  | zero => exact walkWith_all hr (fun _ _ h => h) h
  | succ n ih => exact walkWith_all hr (fun _ _ h => ih h) h

theorem stat_all {r : Except Fault Node} (hr : r ≠ .error .denied)
    (h : t.stat false base = r) : t.stat true base = r := by
  unfold Tree.stat at h ⊢
  cases hwalk : t.walk false maxLinks [] base with
  | error fault =>
    rw [hwalk] at h
    rw [walk_all (fun heq => hr (h.symm.trans (by rw [heq]))) hwalk]
    exact h
  | ok q =>
    rw [hwalk] at h
    have hok : (Except.ok q : Except Fault Path) ≠ .error .denied := nofun
    rw [walk_all hok hwalk]
    exact h

/-- A walk along two lists of names is a walk along each of them. -/
theorem Leads.split {xs ys zs : List String} (h : Leads t all base zs q k) (hzs : zs = xs ++ ys) :
    ∃ p k₁ k₂, Leads t all base xs p k₁ ∧ Leads t all p ys q k₂ ∧ k = k₁ + k₂ := by
  induction h generalizing xs with
  | @done base =>
    obtain ⟨rfl, rfl⟩ := List.append_eq_nil_iff.mp hzs.symm
    exact ⟨base, 0, 0, .done, .done, rfl⟩
  | @slash base q rest k listed entered hdir hrest ih =>
    cases xs with
    | nil =>
      change _ = ys at hzs
      subst hzs
      exact ⟨base, 0, k, .done, .slash hdir hrest, (Nat.zero_add k).symm⟩
    | cons x xs =>
      obtain ⟨rfl, rfl⟩ := List.cons.inj hzs
      obtain ⟨p, k₁, k₂, h₁, h₂, hk⟩ := ih rfl
      exact ⟨p, k₁, k₂, .slash hdir h₁, h₂, hk⟩
  | @dot base q rest k henter hrest ih =>
    cases xs with
    | nil =>
      change _ = ys at hzs
      subst hzs
      exact ⟨base, 0, k, .done, .dot henter hrest, (Nat.zero_add k).symm⟩
    | cons x xs =>
      obtain ⟨rfl, rfl⟩ := List.cons.inj hzs
      obtain ⟨p, k₁, k₂, h₁, h₂, hk⟩ := ih rfl
      exact ⟨p, k₁, k₂, .dot henter h₁, h₂, hk⟩
  | @up base q rest k henter hrest ih =>
    cases xs with
    | nil =>
      change _ = ys at hzs
      subst hzs
      exact ⟨base, 0, k, .done, .up henter hrest, (Nat.zero_add k).symm⟩
    | cons x xs =>
      obtain ⟨rfl, rfl⟩ := List.cons.inj hzs
      obtain ⟨p, k₁, k₂, h₁, h₂, hk⟩ := ih rfl
      exact ⟨p, k₁, k₂, .up henter h₁, h₂, hk⟩
  | @link base q c text rest k henter hslash hdot hup hlink hrest ih =>
    cases xs with
    | nil =>
      change _ = ys at hzs
      subst hzs
      exact ⟨base, 0, k + 1, .done, .link henter hslash hdot hup hlink hrest,
        (Nat.zero_add _).symm⟩
    | cons x xs =>
      obtain ⟨rfl, rfl⟩ := List.cons.inj hzs
      obtain ⟨p, k₁, k₂, h₁, h₂, hk⟩ := ih (List.append_assoc (textNames text) xs ys).symm
      exact ⟨p, k₁ + 1, k₂, .link henter hslash hdot hup hlink h₁, h₂, by omega⟩
  | @step base q c rest k n henter hslash hdot hup hnode hlink hrest ih =>
    cases xs with
    | nil =>
      change _ = ys at hzs
      subst hzs
      exact ⟨base, 0, k, .done, .step henter hslash hdot hup hnode hlink hrest,
        (Nat.zero_add k).symm⟩
    | cons x xs =>
      obtain ⟨rfl, rfl⟩ := List.cons.inj hzs
      obtain ⟨p, k₁, k₂, h₁, h₂, hk⟩ := ih rfl
      exact ⟨p, k₁, k₂, .step henter hslash hdot hup hnode hlink h₁, h₂, hk⟩

/-- What the first name of a walk is. -/
theorem Leads.cons_cases {c : String} (h : Leads t all base (c :: rest) q k) :
    ((c = "" ∨ c = ".") ∧ Leads t all base rest q k) ∨
    (c = ".." ∧ Leads t all base.dropLast rest q k) ∨
    (Enter t all base ∧ c ≠ "" ∧ c ≠ "." ∧ c ≠ ".." ∧
      ((∃ text k', t.lookup (base ++ [c]) = some (.link text) ∧ k = k' + 1 ∧
        Leads t all (startOf base text) (textNames text ++ rest) q k') ∨
      ∃ n, t.lookup (base ++ [c]) = some n ∧ (∀ text, n ≠ .link text) ∧
        Leads t all (base ++ [c]) rest q k)) := by
  cases h with
  | slash _ hrest => exact .inl ⟨.inl rfl, hrest⟩
  | dot _ hrest => exact .inl ⟨.inr rfl, hrest⟩
  | up _ hrest => exact .inr (.inl ⟨rfl, hrest⟩)
  | link henter hslash hdot hup hlink hrest =>
    exact .inr (.inr ⟨henter, hslash, hdot, hup, .inl ⟨_, _, hlink, rfl, hrest⟩⟩)
  | step henter hslash hdot hup hnode hlink hrest =>
    exact .inr (.inr ⟨henter, hslash, hdot, hup, .inr ⟨_, hnode, hlink, hrest⟩⟩)

/-- Names lead to one path, through one number of links. -/
theorem Leads.unique {q' : Path} {k' : Nat} (h : Leads t all base rest q k)
    (h' : Leads t all base rest q' k') : q = q' ∧ k = k' := by
  induction h generalizing q' k' with
  | done =>
    cases h'
    exact ⟨rfl, rfl⟩
  | slash _ _ ih =>
    rcases h'.cons_cases with ⟨_, hrest⟩ | ⟨hup, _⟩ | ⟨_, hslash, _⟩
    · exact ih hrest
    · exact absurd hup (by decide)
    · exact absurd rfl hslash
  | dot _ _ ih =>
    rcases h'.cons_cases with ⟨_, hrest⟩ | ⟨hup, _⟩ | ⟨_, _, hdot, _⟩
    · exact ih hrest
    · exact absurd hup (by decide)
    · exact absurd rfl hdot
  | up _ _ ih =>
    rcases h'.cons_cases with ⟨hno, _⟩ | ⟨_, hrest⟩ | ⟨_, _, _, hup, _⟩
    · exact absurd hno (by decide)
    · exact ih hrest
    · exact absurd rfl hup
  | link _ hslash hdot hup hlink _ ih =>
    rcases h'.cons_cases with ⟨hno, _⟩ | ⟨hno, _⟩ | ⟨_, _, _, _, hcases⟩
    · exact absurd hno (not_or.mpr ⟨hslash, hdot⟩)
    · exact absurd hno hup
    · rcases hcases with ⟨text, k'', hlink', rfl, hrest⟩ | ⟨n, hnode, hnone, _⟩
      · obtain rfl := Node.link.inj (Option.some.inj (hlink.symm.trans hlink'))
        obtain ⟨rfl, rfl⟩ := ih hrest
        exact ⟨rfl, rfl⟩
      · exact absurd (Option.some.inj (hnode.symm.trans hlink)) (hnone _)
  | step _ hslash hdot hup hnode hnone _ ih =>
    rcases h'.cons_cases with ⟨hno, _⟩ | ⟨hno, _⟩ | ⟨_, _, _, _, hcases⟩
    · exact absurd hno (not_or.mpr ⟨hslash, hdot⟩)
    · exact absurd hno hup
    · rcases hcases with ⟨text, k'', hlink, _, _⟩ | ⟨n, _, _, hrest⟩
      · exact absurd (Option.some.inj (hnode.symm.trans hlink)) (hnone _)
      · exact ih hrest

/-- A plain path that has been entered up to its end. -/
structure Arrived (t : Tree) (all : Bool) (p : Path) : Prop where
  plain : Plain t p
  enter : ∀ d, d <+: p → d ≠ p → Enter t all d

theorem Arrived.nil : Arrived t all [] where
  plain := .nil
  enter _ hd hne := absurd (List.prefix_nil.mp hd) hne

theorem Arrived.mono {p : Path} (h : Arrived t all p) (hq : q <+: p) : Arrived t all q where
  plain := h.plain.mono hq
  enter d hd hne := by
    refine h.enter d (hd.trans hq) ?_
    rintro rfl
    exact hne (hd.eq_of_length (Nat.le_antisymm hd.length_le hq.length_le))

theorem Arrived.snoc {p : Path} {c : String} (h : Arrived t all p) (henter : Enter t all p)
    (hnode : t.lookup (p ++ [c]) = some m) (hlink : ∀ text, m ≠ .link text) :
    Arrived t all (p ++ [c]) where
  plain := by
    refine h.plain.snoc (names_of_lookup hnode c (by simp)) ?_
    intro text heq
    exact hlink text (Option.some.inj (hnode.symm.trans heq))
  enter d hd hne := by
    rcases List.prefix_concat_iff.mp hd with heq | hd
    · exact absurd heq hne
    · by_cases heq : d = p
      · rwa [heq]
      · exact h.enter d hd heq

/-- A walk arrives where it leads. -/
theorem Leads.arrived (h : Leads t all base rest q k) (hbase : Arrived t all base) :
    Arrived t all q := by
  induction h with
  | done => exact hbase
  | slash _ _ ih => exact ih hbase
  | dot _ _ ih => exact ih hbase
  | up _ _ ih => exact ih (hbase.mono (List.dropLast_prefix _))
  | @link base q c text rest k _ _ _ _ _ _ ih =>
    apply ih
    unfold startOf
    split
    · exact .nil
    · exact hbase
  | step henter _ _ _ hnode hlink _ ih => exact ih (hbase.snoc henter hnode hlink)

/-- A plain path leads nowhere else. -/
theorem Leads.eq_of_plain (h : Leads t all base rest q k) (hplain : Plain t (base ++ rest)) :
    q = base ++ rest := by
  induction h with
  | done => exact (List.append_nil _).symm
  | slash => exact absurd rfl (isName_ne (hplain.names "" (by simp))).1
  | dot => exact absurd rfl (isName_ne (hplain.names "." (by simp))).2.1
  | up => exact absurd rfl (isName_ne (hplain.names ".." (by simp))).2.2.1
  | @link base q c text rest k _ _ _ _ hlink =>
    exact absurd hlink (hplain.links _ ⟨rest, by simp⟩ text)
  | @step base q c rest k n _ _ _ _ _ _ _ ih =>
    rw [List.append_cons] at hplain ⊢
    exact ih hplain

/-- Where one has arrived, the path itself leads. -/
theorem Arrived.leads (h : Arrived t all (base ++ rest)) (hnode : t.lookup (base ++ rest) = some m) :
    Leads t all base rest (base ++ rest) 0 := by
  induction rest generalizing base with
  | nil =>
    rw [List.append_nil]
    exact .done
  | cons c rest ih =>
    have hc := isName_ne (h.plain.names c (by simp))
    have hhead : base ++ [c] <+: base ++ c :: rest := ⟨rest, by simp⟩
    have henter := h.enter base ⟨c :: rest, rfl⟩ (by simp)
    have hrest : base ++ c :: rest = (base ++ [c]) ++ rest := List.append_cons base c rest
    -- the next name is a directory, or the end
    have hnext : ∃ n, t.lookup (base ++ [c]) = some n := by
      by_cases hlast : rest = []
      · subst hlast
        exact ⟨m, hnode⟩
      · obtain ⟨l, e, hdir, _⟩ := h.enter (base ++ [c]) hhead (by simpa using hlast)
        exact ⟨_, hdir⟩
    obtain ⟨n, hn⟩ := hnext
    have hlink : ∀ text, n ≠ .link text := by
      rintro text rfl
      exact h.plain.links _ hhead text hn
    rw [hrest] at h hnode ⊢
    exact .step henter hc.1 hc.2.1 hc.2.2.1 hn hlink (ih h hnode)

/-- The path that a walk arrives at has the node that was found. -/
theorem Arrived.stat {p : Path} (h : Arrived t all p) (hnode : t.lookup p = some m) :
    t.stat all p = .ok m := by
  refine stat_ok.mpr ⟨p, 0, Nat.zero_le _, ?_, hnode⟩
  exact Arrived.leads h hnode

end Walk

/-! ### Resolving and walking -/

section Resolve

variable {t : Tree} {all : Bool} {base p q : Path} {rest : List String} {seen : List Path}
  {n k : Nat} {m : Node}

/-- What resolves the text of a link, with `n` more links allowed. -/
def nestedOf (t : Tree) : Nat → List Path → Path → List String → List String × Bool
  | 0 => fun _ base rest => (base ++ rest, false)
  | n + 1 => t.joinReal n

theorem joinReal_eq (n : Nat) : t.joinReal n = t.joinWith (nestedOf t n) := by
  cases n <;> rfl

/-- An entry that can be seen is there. -/
theorem lookup_of_lstat {c : String} (h : t.lstat base c = some m) :
    t.lookup (base ++ [c]) = some m := by
  unfold Tree.lstat at h
  split at h
  · exact h
  · cases h

/-- A plain path stays as it is. -/
theorem joinReal_of_plain (h : Plain t (base ++ rest)) :
    t.joinReal n seen base rest = (base ++ rest, true) := by
  induction rest generalizing base with
  | nil => rw [joinReal_eq, Tree.joinWith, List.append_nil]
  | cons c rest ih =>
    obtain ⟨hslash, hdot, hup, _⟩ := isName_ne (h.names c (by simp))
    have hnext := @ih (base ++ [c]) (by rwa [← List.append_cons])
    rw [joinReal_eq] at hnext ⊢
    rw [List.append_cons, ← hnext, Tree.joinWith, if_neg (by simp [hslash, hdot]), if_neg (by simpa)]
    split
    · next text hlink =>
      exact absurd (lookup_of_lstat hlink) (h.links _ ⟨rest, by simp⟩ text)
    · rfl

theorem mayEnter_of_arrived (h : Arrived t false base) (henter : Enter t false base) :
    t.mayEnter base = true := by
  rw [Tree.mayEnter, List.all_eq_true]
  intro d hd
  have hd' : Enter t false d := by
    by_cases heq : d = base
    · rwa [heq]
    · exact h.enter d ((List.mem_inits _ _).mp hd) heq
  obtain ⟨listed, entered, hdir, hok⟩ := hd'
  rw [hdir]
  exact hok

/-- The links that are being resolved, when a walk through `k` links is left: each leads through as
many at least, so none of them is met again. -/
structure Resolving (t : Tree) (seen : List Path) (k : Nat) : Prop where
  nodup : seen.Nodup
  links : ∀ link ∈ seen, ∃ text p k', t.lookup link = some (.link text) ∧
    Leads t false (startOf link.dropLast text) (textNames text) p k' ∧ k ≤ k'

theorem Resolving.nil : Resolving t [] k := ⟨List.nodup_nil, fun _ h => absurd h List.not_mem_nil⟩

theorem Resolving.mono {k' : Nat} (h : Resolving t seen k) (hk : k' ≤ k) : Resolving t seen k' where
  nodup := h.nodup
  links link hlink := by
    obtain ⟨text, p, k'', hnode, hleads, hle⟩ := h.links link hlink
    exact ⟨text, p, k'', hnode, hleads, le_trans hk hle⟩

/-- There are no more links than nodes. -/
theorem Resolving.length_le (h : Resolving t seen k) : seen.length ≤ t.nodes.length := by
  have hsub : seen ⊆ t.nodes.map Prod.fst := by
    intro link hlink
    obtain ⟨text, _, _, hnode, _⟩ := h.links link hlink
    refine mem_of_lookup hnode ?_
    rintro rfl
    cases hnode
  have := (h.nodup.subperm hsub).length_le
  rwa [List.length_map] at this

/-- The next link is none of those that are being resolved. -/
theorem Resolving.cons {c text : String} {k₁ k₂ : Nat} (h : Resolving t seen (k₁ + k₂ + 1))
    (hlink : t.lookup (base ++ [c]) = some (.link text))
    (hleads : Leads t false (startOf base text) (textNames text) p k₁) :
    base ++ [c] ∉ seen ∧ Resolving t ((base ++ [c]) :: seen) k₁ := by
  have hnew : base ++ [c] ∉ seen := by
    intro hmem
    obtain ⟨text', p', k', hlink', hleads', hle⟩ := h.links _ hmem
    obtain rfl := Node.link.inj (Option.some.inj (hlink.symm.trans hlink'))
    rw [List.dropLast_concat] at hleads'
    have := (hleads.unique hleads').2
    omega
  refine ⟨hnew, List.nodup_cons.mpr ⟨hnew, h.nodup⟩, ?_⟩
  intro link hmem
  rcases List.mem_cons.mp hmem with rfl | hmem
  · refine ⟨text, p, k₁, hlink, ?_, Nat.le_refl _⟩
    rwa [List.dropLast_concat]
  · exact (h.mono (by omega)).links link hmem

/-- Where the kernel arrives, resolving arrives too. -/
theorem joinReal_of_leads (h : Leads t false base rest q k) (hbase : Arrived t false base)
    (hseen : Resolving t seen k) (hn : seen.length + n = t.nodes.length) :
    t.joinReal n seen base rest = (q, true) := by
  induction k using Nat.strong_induction_on generalizing n seen base rest q with
  | _ k ih =>
  induction rest generalizing base with
  | nil =>
    cases h
    rw [joinReal_eq, Tree.joinWith]
  | cons c rest ihrest =>
    rw [joinReal_eq, Tree.joinWith]
    rcases h.cons_cases with ⟨hc, hrest⟩ | ⟨hup, hrest⟩ | ⟨henter, hslash, hdot, hup, hcases⟩
    · rw [if_pos (by simpa using hc), ← joinReal_eq]
      exact ihrest hrest hbase
    · rw [if_neg (by simp [hup]), if_pos (by simpa using hup), ← joinReal_eq]
      exact ihrest hrest (hbase.mono (List.dropLast_prefix _))
    · have hlstat : t.lstat base c = t.lookup (base ++ [c]) := by
        rw [Tree.lstat, if_pos (mayEnter_of_arrived hbase henter)]
      rw [if_neg (by simp [hslash, hdot]), if_neg (by simpa using hup), hlstat]
      rcases hcases with ⟨text, k', hlink, rfl, hrest⟩ | ⟨node, hnode, hnone, hrest⟩
      · obtain ⟨p, k₁, k₂, hfirst, hsecond, rfl⟩ := hrest.split rfl
        obtain ⟨hnew, hnested⟩ := hseen.cons hlink hfirst
        have hlength := hnested.length_le
        rw [List.length_cons] at hlength
        obtain ⟨n, rfl⟩ := Nat.exists_eq_succ_of_ne_zero (n := n) (by omega)
        have hstart : Arrived t false (startOf base text) := by
          unfold startOf
          split
          · exact .nil
          · exact hbase
        have htext := ih k₁ (by omega) (n := n) hfirst hstart hnested
          (by rw [List.length_cons]; omega)
        rw [startOf] at htext
        rw [hlink]
        dsimp only
        rw [if_neg (by simpa using hnew), nestedOf, htext]
        dsimp only
        have hrest' := ih k₂ (by omega) hsecond (hfirst.arrived hstart) (hseen.mono (by omega)) hn
        rwa [joinReal_eq] at hrest'
      · have hnext := ihrest hrest (hbase.snoc henter hnode hnone)
        rw [joinReal_eq] at hnext
        rw [hnode]
        cases node with
        | link text => exact absurd rfl (hnone text)
        | file data => exact hnext
        | dir listed entered => exact hnext
        | special => exact hnext

/-- A plain path is no loop. -/
theorem walk_ne_loop (h : Plain t (base ++ rest)) : t.walk all n base rest ≠ .error .loop := by
  induction rest generalizing base with
  | nil =>
    rw [walk_eq, Tree.walkWith]
    nofun
  | cons c rest ih =>
    obtain ⟨hslash, hdot, hup, _⟩ := isName_ne (h.names c (by simp))
    have hnext := @ih (base ++ [c]) (by rwa [← List.append_cons])
    rw [walk_eq] at hnext ⊢
    rw [Tree.walkWith]
    split
    · rw [if_neg (by simpa using hslash)]
      split
      · nofun
      · rw [if_neg (by simpa using hdot), if_neg (by simpa using hup)]
        split
        · nofun
        · next text hlink => exact absurd hlink (h.links _ ⟨rest, by simp⟩ text)
        · exact hnext
    · nofun

theorem Plain.stat_ne_loop (h : Plain t p) : t.stat all p ≠ .error .loop := by
  have hwalk : t.walk all maxLinks [] p ≠ .error .loop := walk_ne_loop h
  unfold Tree.stat
  split
  · next fault heq =>
    intro hfault
    cases hfault
    exact hwalk heq
  · split <;> nofun

/-- Resolving keeps a plain path, and nothing else leads to it in a loop. -/
theorem Plain.resolve_of_join {ok : Bool} (h : Plain t q)
    (hjoin : t.joinReal t.nodes.length [] [] p = (q, ok)) (hp : ∀ c ∈ p, hasNul c = false) :
    t.resolve p = some q := by
  have hkeep : normalize [] q = q := normalize_of_names h.names
  have hnul : p.any hasNul = false := by
    rw [List.any_eq_false]
    intro c hc
    rw [hp c hc]
    exact Bool.false_ne_true
  have hloop : (t.stat false q == .error .loop) = false := beq_false_of_ne h.stat_ne_loop
  rw [Tree.resolve, hjoin]
  dsimp only
  rw [hkeep, hnul, hloop]
  rfl

/-- A plain path resolves to itself. -/
theorem Plain.resolve (h : Plain t p) : t.resolve p = some p :=
  h.resolve_of_join (joinReal_of_plain h) fun c hc => (isName_ne (h.names c hc)).2.2.2

/-- Every name of a walk is the name of something, or stands for something. -/
theorem Leads.hasNul (h : Leads t all base rest q k) : ∀ c ∈ rest, hasNul c = false := by
  induction h with
  | done => exact fun c hc => absurd hc List.not_mem_nil
  | slash _ _ ih => exact List.forall_mem_cons.mpr ⟨by decide, ih⟩
  | dot _ _ ih => exact List.forall_mem_cons.mpr ⟨by decide, ih⟩
  | up _ _ ih => exact List.forall_mem_cons.mpr ⟨by decide, ih⟩
  | link _ _ _ _ hlink _ ih =>
    refine List.forall_mem_cons.mpr ⟨?_, fun c hc => ih c (List.mem_append_right _ hc)⟩
    exact (isName_ne (names_of_lookup hlink _ (by simp))).2.2.2
  | step _ _ _ _ hnode _ _ ih =>
    refine List.forall_mem_cons.mpr ⟨?_, ih⟩
    exact (isName_ne (names_of_lookup hnode _ (by simp))).2.2.2

/-- What the kernel finds at a path is at what the path resolves to. -/
theorem resolve_of_stat (h : t.stat false p = .ok m) :
    ∃ q, t.resolve p = some q ∧ Arrived t false q ∧ t.lookup q = some m := by
  obtain ⟨q, k, _, hleads, hnode⟩ := stat_ok.mp h
  have harrived := hleads.arrived .nil
  have hjoin := joinReal_of_leads (n := t.nodes.length) hleads .nil .nil
    (by rw [List.length_nil, Nat.zero_add])
  exact ⟨q, harrived.plain.resolve_of_join hjoin hleads.hasNul, harrived, hnode⟩

end Resolve

/-! ### Below a directory -/

theorem mem_below {t : Tree} {base p : Path} : p ∈ t.below base ↔ ∃ q r,
    t.walk false maxLinks [] base = .ok q ∧ r ∈ t.nodes.map Prod.fst ∧ q <+: r ∧ r ≠ q ∧
      (∀ d, q <+: d → d <+: r → d ≠ r → t.listable d = true) ∧ p = base ++ r.drop q.length := by
  unfold Tree.below
  split
  · next hwalk => simp [hwalk]
  · next q hwalk =>
    simp only [List.mem_filterMap, hwalk, Except.ok.injEq]
    constructor
    · rintro ⟨⟨r, n⟩, hmem, hr⟩
      dsimp only at hr
      split at hr
      · next hcond =>
        obtain ⟨hpre, hne, hlist⟩ := hcond
        refine ⟨q, r, rfl, List.mem_map.mpr ⟨(r, n), hmem, rfl⟩, hpre, hne, ?_,
          (Option.some.inj hr).symm⟩
        intro d hqd hdr hd
        rw [List.all_eq_true] at hlist
        have := hlist d ((List.mem_inits _ _).mpr hdr)
        simpa [List.isPrefixOf_iff_prefix.mpr hqd, hd] using this
      · cases hr
    · rintro ⟨_, r, rfl, hmem, hpre, hne, hlist, rfl⟩
      obtain ⟨⟨r, n⟩, hnode, rfl⟩ := List.mem_map.mp hmem
      refine ⟨(r, n), hnode, ?_⟩
      dsimp only
      rw [if_pos]
      refine ⟨hpre, hne, ?_⟩
      rw [List.all_eq_true]
      intro d hd
      have hdr := (List.mem_inits _ _).mp hd
      by_cases hqd : q <+: d
      · by_cases heq : d = r
        · simp [heq]
        · simp [hlist d hqd hdr heq]
      · simp [Bool.eq_false_iff.mpr (mt List.isPrefixOf_iff_prefix.mp hqd)]

end FileTree
