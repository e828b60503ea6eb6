import Cbpf.Jit.Invocation
import Cbpf.Jit.ModelRefinement

/-!
# An invocation from its first word to its verdict

`cbpf_test_invoke` around the call of a compiled image: whatever an admitted program does, the call
returns, the teardown gives every acquisition back exactly once, and what is left is the terminal state
of a history of the ownership model.
-/

namespace Cbpf.Jit

open Cheri Kernel Executive

variable {k : Kfuncs} {env : Env} {prog : List BpfInsn} {a : Admission} {s : BpfState}
  {m : Model.State} {g : Running}

/-- What the ownership model says of what `cbpf_test_invoke` leaves in `u` and returns, when the image
has returned `x`. -/
inductive Verdict (env : Env) (u : Running) (x : Nat) : Nat → Prop
  | finished (holders : List Capability) (m : Model.State) : Model.Reachable 3 0 2 false m →
      m.terminal = .ret → Agrees env ⟨u, holders⟩ m → Verdict env u x x
  | stale (holders : List Capability) (m : Model.State) : Model.Reachable 3 0 2 false m →
      m.terminal = .staleRead ∨ m.terminal = .staleRelease → Agrees env ⟨u, holders⟩ m →
      Verdict env u x 0
  /-- an acquire argument above 1, which the model does not have -/
  | argument (holders : List Capability) (m : Model.State) : Model.Reachable 3 0 2 false m →
      m.terminal = .active → (∀ reason, Agrees env ⟨u, holders⟩ (m.terminate reason)) →
      Verdict env u x 0
  /-- `cbpf_enter` has returned an error -/
  | refused : u.s.entered = false → u.s.acquired = 0 → Verdict env u x 0

/-- The invocation whose image has returned `x` and left the gate in `g`. -/
structure Settles (env : Env) (object : ProviderObject) (g : Running) (x : Nat) : Prop where
  /-- no reference is lost and none is kept -/
  object : (g.teardown x).1.object = object
  once : ∀ i < g.s.acquired, (g.teardown x).1.s.consumptions i = 1
  scrubbed : (g.teardown x).1.s.cells = List.replicate 2 .null ∧
    (g.teardown x).1.s.views = List.replicate 2 .null
  verdict : Verdict env (g.teardown x).1 x (g.teardown x).2

/-- The teardown after a run, which a rejected call may have ended. -/
theorem settles_of_related (h : Kernel.Related env 3 s.client m)
    (hg : g = s.g ∨ ∃ pc, g = s.g.fail pc) {x : Nat}
    (hverdict : Verdict env (g.teardown x).1 x (g.teardown x).2) : Settles env ⟨42, 1⟩ g x := by
  have hrefs := h.ok.refs
  have hvalue := h.ok.value
  obtain ⟨hinv, hacc, hobject, hcells⟩ : g.s.Inv env ∧ g.s.Accounted ∧ g.object = s.g.object ∧
      g.s.cells = s.g.s.cells := by
    rcases hg with rfl | ⟨pc, rfl⟩
    · exact ⟨h.ok.inv, h.ok.accounted, rfl, rfl⟩
    · refine ⟨h.ok.inv.congr rfl rfl rfl rfl rfl rfl, fun i => ?_, rfl, rfl⟩
      rw [Running.fail, consumptions_trace]
      exact h.ok.accounted i
  have htorn := tornDown hinv hacc x
  refine ⟨?_, htorn.once, htorn.scrubbed, hverdict⟩
  have htagged : g.s.tagged = s.g.s.tagged := by rw [Invocation.tagged, hcells, Invocation.tagged]
  have hvalue' : (g.teardown x).1.object.value = 42 := by
    rw [htorn.value, hobject]
    exact hvalue
  have hrefs' : (g.teardown x).1.object.refs = 1 := by
    have hrefs₀ : s.g.object.refs = 1 + (s.g.s.tagged : Int) := hrefs
    rw [htorn.refs, hobject, htagged, hrefs₀]
    omega
  rw [← hvalue', ← hrefs']

/-- The teardown when the entry has been refused. -/
theorem settles_refused (prog cellsAddr x : Nat) :
    Settles env ⟨42, 1⟩ ⟨⟨42, 1⟩, .zeroed prog cellsAddr⟩ x := by
  have htorn := tornDown (g := ⟨⟨42, 1⟩, .zeroed prog cellsAddr⟩)
    (Invocation.Inv.zeroed env prog cellsAddr) (Invocation.Accounted.zeroed prog cellsAddr) x
  exact ⟨rfl, htorn.once, htorn.scrubbed, .refused rfl rfl⟩

/-- The teardown after a run of an admitted program. -/
theorem settles_of_ended (h : admitProgram k prog = .ok a) (hd : Driven k env prog a s m) {x : Nat}
    (hended : Ended k env prog s g x) : Settles env ⟨42, 1⟩ g (x % 2 ^ 32) := by
  have hR := driven_drives env h
  obtain ⟨hreachable, hactive⟩ := hR.reachable s m hd
  cases hended with
  | exit clobber v hexit =>
    obtain ⟨hreturned, e, he, _, hret, hagrees⟩ :=
      hR.exit s m clobber v (v.address % 2 ^ 32) hd hexit
    refine settles_of_related hd.2 (.inl rfl) ?_
    rw [hreturned]
    exact .finished s.client.holders e.target (.tail hreachable ⟨e, he, rfl⟩) hret hagrees
  | rejected clobber call g hrejected =>
    obtain ⟨hg, hreturned, hmodel⟩ := hR.rejected s m clobber call g (0 % 2 ^ 32) hd hrejected
    refine settles_of_related hd.2 (.inr ⟨_, hg⟩) ?_
    rw [hreturned]
    rcases hmodel with ⟨e, hedge, hstale, hagrees⟩ | ⟨_, _, hagrees⟩
    · exact .stale s.client.holders e.target (.tail hreachable ⟨e, hedge.mem, rfl⟩) hstale hagrees
    · exact .argument s.client.holders m hreachable hactive hagrees

/-- The run that `cbpf_enter` starts begins the only invocation. -/
theorem begins_of_entered {ctx : EnterContext} {args : EnterArgs} {cookie cellsAddr : Nat}
    {s' : Invocation} {entry : Entry} (hexact : Exact env (.zeroed cookie cellsAddr))
    (henter : cbpfEnter env ctx args (.zeroed cookie cellsAddr) = .ok (s', entry))
    (hs : Starts env s) (hg : s.g = ⟨⟨42, 1⟩, s'⟩) : Begins env s := by
  obtain ⟨_, _, hs'⟩ := cbpfEnter_ok henter
  refine ⟨hs, ?_, by rw [hg], ?_⟩
  · rw [hg, hs']
    intro i
    have hzeroed := Invocation.Accounted.zeroed cookie cellsAddr i
    have hline := consumptions_print ⟨⟨42, 1⟩, .zeroed cookie cellsAddr⟩ (enterLine ctx args) i rfl
    change (Running.print ⟨⟨42, 1⟩, .zeroed cookie cellsAddr⟩ (enterLine ctx args)).s.consumptions i +
      _ = _
    rw [hline]
    exact hzeroed
  · rw [hg, hs']
    exact ⟨hexact.view, hexact.object⟩

/-- Every invocation of an admitted program comes to its end: the image returns to its caller, and the
teardown settles what the program has acquired. -/
theorem invocation_settles (k : Kfuncs) (t : Target) (prog : List BpfInsn) (a : Admission)
    (henc : t.Encodes) (h : admitProgram k prog = .ok a) (hlen : prog.length ≤ cbpfMaxInsns) :
    ∃ c image, (Compiler.ofAdmission prog a).passes t = some c ∧ c.image = some image ∧
      ∀ (P : Platform) (caller : Executive) (cookie cellsAddr : Nat), P.t = t → P.image = image →
        caller.pc = 0 → 0 < cellsAddr → 16 ∣ cellsAddr → Exact P.env (.zeroed cookie cellsAddr) →
        Inevitable (Processor.Step P) (fun σ => ∃ x m g, σ = .returned (caller.x a64Lr) m g ∧
            Back caller x m ∧ Settles P.env ⟨42, 1⟩ g (x % 2 ^ 32))
          (.executive caller ⟨⟨42, 1⟩, .zeroed cookie cellsAddr⟩) := by
  obtain ⟨c, image, hpasses, himage, hloaded⟩ := compile_written henc h hlen
  refine ⟨c, image, hpasses, himage, ?_⟩
  rintro P caller cookie cellsAddr rfl rfl hpc hpos hdvd hexact
  have hfresh : Fresh ⟨⟨42, 1⟩, .zeroed cookie cellsAddr⟩ := ⟨rfl, _, _, rfl, hpos, hdvd⟩
  refine (inevitable_finished h hloaded hpc hfresh).mono fun σ hσ => ?_
  cases hσ with
  | refused err m _ hback => exact ⟨0, m, _, rfl, hback, settles_refused cookie cellsAddr _⟩
  | ran s' entry s₀ s₁ g' x m henter hstarts hgate hrun hended hback =>
    have hbegins := begins_of_entered hexact henter hstarts hgate
    obtain ⟨m₁, hm₁⟩ := (driven_drives P.env h).run (driven_start h hbegins) hrun
    exact ⟨x, m, g', rfl, hback, settles_of_ended h hm₁ hended⟩

/-- The sample program on a flat machine. -/
theorem invocation_settles_flat : ∃ a c image,
    admitProgram immKfuncs acquireRelease = .ok a ∧
    (Compiler.ofAdmission acquireRelease a).passes plainTarget = some c ∧ c.image = some image ∧
    Inevitable (Processor.Step ⟨plainMorello, plainTarget, flatEnv, flatContext, image, .ofInt⟩)
      (fun σ => ∃ x m g, σ = .returned 0x7000 m g ∧ Back callerState x m ∧
        Settles flatEnv ⟨42, 1⟩ g (x % 2 ^ 32))
      (.executive callerState ⟨⟨42, 1⟩, .zeroed 0x8000 12288⟩) := by
  obtain ⟨a, haccepted⟩ := acquireRelease_admitted
  obtain ⟨c, image, hpasses, himage, hsettles⟩ := invocation_settles immKfuncs plainTarget
    acquireRelease a (fun _ h => h) haccepted (by decide)
  refine ⟨a, c, image, haccepted, hpasses, himage, ?_⟩
  have hexact : Exact flatEnv (.zeroed 0x8000 12288) := by
    refine ⟨fun i hi => ?_, by decide⟩
    match i, hi with
    | 0, _ => decide
    | 1, _ => decide
  exact hsettles ⟨plainMorello, plainTarget, flatEnv, flatContext, image, .ofInt⟩ callerState 0x8000
    12288 rfl rfl rfl (by decide) (by decide) hexact

end Cbpf.Jit
