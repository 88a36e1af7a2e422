import LateBind.Proofs.Dynamic.View

/-!
# Remembered links are not seen

The machine and the one without memory go on in step. So a call through a site comes to what
looking the property up at that moment comes to, whatever the site remembers.
-/

namespace LateBind

/-! ## 1. Calls -/

/-- A call in progress without what it holds on to. -/
def Frame.view : Frame → Uncached.Frame
  | .resume next => .resume next
  | .stub _ | .site .. => .call

def Config.view (c : Config) : Uncached.Config := ⟨c.heap.view, c.program, c.stack.map (·.view)⟩

section Calls

variable {code : Routines} {h : Heap} {args : List Value} {stack : List Frame}

theorem Target.enter_view {t : Target} (hs : h.Sound stack) :
    Uncached.enterTarget t code h.view args = (t.enter code h args).map Heap.viewAnswer := by
  cases t with
  | method f | constant v | missing name => rfl
  | define name =>
    -- A setter does something only for one object and one value.
    rcases args with _ | ⟨a, _ | ⟨v, _ | ⟨w, rest⟩⟩⟩
    · rfl
    · cases a <;> rfl
    · cases a with
      | object o =>
        simp only [Uncached.enterTarget, enter]
        rw [hs.view_define, Option.map_map, Option.map_map]
        rfl
      | _ => rfl
    · cases a <;> rfl

theorem called_view (f : Frame) (hf : f.view = .call) (entered : Option (Program × Heap)) :
    Uncached.called (stack.map (·.view)) (entered.map Heap.viewAnswer) =
      (entered.bind fun p => some ⟨p.2, p.1, f :: stack⟩).map Config.view := by
  cases entered with
  | none => rfl
  | some p => simp [Uncached.called, Config.view, Heap.viewAnswer, hf]

-- What a site remembers and how often it was bound are not seen.
theorem Heap.Sound.view_setSite {s : SiteId} {x : Site} (hs : h.Sound stack)
    (hx : h.site? s = some x) (cached : Option Link) (relinks : Nat) :
    (h.setSite s { x with cached, relinks }).view = h.view := by
  have hhandles : h.handles.map (h.setSite s { x with cached, relinks }).viewHandle =
      h.handles.map h.viewHandle :=
    hs.map_viewHandle fun t y hy => Heap.exists_site?_setSite hx hy cached relinks
  unfold Heap.view
  exact congrArg (Uncached.State.mk _ _ · _) hhandles

variable {s : SiteId}

theorem relink_view {x : Site} (hs : h.Sound stack) (hlive : s ∈ h.liveSites stack)
    (hx : h.site? s = some x) :
    Uncached.called (stack.map (·.view)) (Uncached.dispatch code h.view x.name x.shape args) =
      (relink code h s x args stack).map Config.view := by
  unfold Uncached.dispatch relink
  cases receiver? args with
  | none => rfl
  | some o =>
    have hlink := h.link_eq (.site s x.cached none :: stack) o x.name x.shape
    simp only [Heap.object?_view]
    cases ho : h.object? o with
    | none =>
      rw [ho] at hlink
      simp only [hlink]
      rfl
    | some y =>
      simp only [ho, Option.map_some] at hlink
      simp only [hlink, Option.map_some, Option.bind_eq_bind, Option.bind_some, Heap.target_view]
      cases ht : y.target x.name x.shape with
      | error e => rfl
      | ok t =>
        rw [ht] at hlink
        -- The target runs where the token is out and the site bound, and neither is seen.
        have hcall := hs.relinked hlive hx hlink
        have hunlinked := hs.unlinked hlive hx
        have hview : (h.grant (.site s x.cached none :: stack) o y x.name).view = h.view :=
          hunlinked.view_grant ho
        have hset := (hunlinked.link hlink).1.view_setSite hx x.cached (x.relinks + 1)
        simp only [Except.map]
        rw [← hview, ← hset, Target.enter_view hcall]
        exact called_view _ rfl _

/-- A call through a site does what an uncached call of its name does. A link the site remembers
is used only while it says the same. -/
theorem dispatch_view {x : Site} (hs : h.Sound stack) (hlive : s ∈ h.liveSites stack)
    (hx : h.site? s = some x) :
    Uncached.called (stack.map (·.view)) (Uncached.dispatch code h.view x.name x.shape args) =
      (dispatch code h s args stack).map Config.view := by
  unfold dispatch
  simp only [hx, Option.bind_eq_bind, Option.bind_some]
  cases hhit : x.cached.filter fun l => h.guards l args with
  | none => exact relink_view hs hlive hx
  | some l =>
    obtain ⟨hcached, hguards⟩ := Option.filter_eq_some_iff.1 hhit
    rw [Heap.guards, Bool.and_eq_true, beq_iff_eq] at hguards
    obtain ⟨hvalid, howner⟩ := hguards
    -- The link is honoured and valid, so it says what binding the site anew would say.
    obtain ⟨y, hy, -, htarget⟩ := (hs.honours_cached hlive hx hcached).current hvalid
    obtain ⟨z, hz, hname, hshape⟩ := hs.remembered s l (.inl ⟨x, hx, hcached⟩)
    obtain rfl : x = z := Option.some.inj (hx.symm.trans hz)
    rw [hname, hshape] at htarget
    have hdispatch : Uncached.dispatch code h.view x.name x.shape args =
        Uncached.enterTarget l.target code h.view args := by
      simp only [Uncached.dispatch, howner, Heap.object?_view, hy, Option.map_some,
        Option.bind_eq_bind, Option.bind_some, Heap.target_view, htarget]
    rw [hdispatch, Target.enter_view hs]
    exact called_view _ rfl _

-- Through whichever site a reference goes, the state looks the same before the call.
theorem Heap.Sound.view_referenceSite {k : Heap} {r : ReferenceId} {name : String} {arity : Nat}
    (hs : h.Sound stack) (hp : h.referenceSite r name arity = some (s, k)) : k.view = h.view := by
  unfold Heap.referenceSite at hp
  obtain ⟨current, -, hp⟩ := Option.map_eq_some_iff.1 hp
  dsimp only at hp
  split at hp
  · cases hp
    rfl
  · cases hp
    have hhandles := hs.map_viewHandle_createSite name { arity }
    unfold Heap.view
    rw [List.length_set]
    exact congrArg (Uncached.State.mk _ _ · _) hhandles

theorem Invocation.enter_view {i : Invocation} (hs : h.Sound stack) :
    Uncached.enter i code h.view (stack.map (·.view)) =
      (i.enter code h stack).map Config.view := by
  cases i with
  | function f args => rfl
  | stub i args =>
    simp only [Uncached.enter, Invocation.enter, Heap.stub?_view]
    cases h.stub? i with
    | none => rfl
    | some x =>
      simp only [Option.map_some, Option.bind_eq_bind, Option.bind_some]
      show (if h.guards x.link args then _ else _) = _
      split
      · refine Eq.trans ?_ (called_view (.stub x) rfl (x.link.target.enter code h args))
        rw [← Target.enter_view hs]
        rfl
      · rfl
  | site i args =>
    simp only [Uncached.enter, Invocation.enter, Heap.getElem?_handles_view]
    rcases hi : h.handles[i.index]? with _ | ⟨s, live⟩
    · rfl
    · have hmem : ⟨s, live⟩ ∈ h.handles := List.mem_of_getElem? hi
      obtain ⟨x, hx⟩ := hs.handles _ hmem
      simp only [Option.map_some, Option.bind_eq_bind, Option.bind_some, Heap.viewHandle_eq hx]
      cases live with
      | true => exact dispatch_view hs (Heap.mem_liveSites.2 (.inl ⟨_, hmem, rfl, rfl⟩)) hx
      | false =>
        simp only [hx]
        rfl
  | reference r callee args =>
    cases callee with
    | boundMethod o name =>
      simp only [Uncached.enter, Invocation.enter]
      have hlength : h.view.references = h.references.length := rfl
      cases hp : h.referenceSite r name (args.length + 1) with
      | none =>
        -- A reference answers with a site exactly if there is such a reference.
        have hr : h.references[r.index]? = none := Option.map_eq_none_iff.1 hp
        rw [if_neg (by rw [hlength]; exact Nat.not_lt.2 (List.getElem?_eq_none_iff.1 hr))]
        rfl
      | some p =>
        obtain ⟨s, k⟩ := p
        obtain ⟨hk, hlive, x, hx, rfl, hshape⟩ := hs.referenceSite hp
        have hr : r.index < h.references.length := by
          obtain ⟨current, hr, -⟩ := Option.map_eq_some_iff.1 hp
          exact (List.getElem?_eq_some_iff.1 hr).1
        rw [if_pos (hlength ▸ hr), ← hs.view_referenceSite hp, ← hshape]
        exact dispatch_view hk hlive hx
    | _ => rfl

end Calls

theorem Frame.finish_view {f : Frame} {outcome : Outcome} {h : Heap} {stack : List Frame}
    (hs : h.Sound (f :: stack)) :
    Uncached.step code ⟨h.view, .done outcome, (f :: stack).map (·.view)⟩ =
      some (f.finish outcome h stack).view := by
  cases f with
  | resume next => rfl
  | stub s => rfl
  | site s read linked =>
    simp only [Frame.finish]
    split
    next l x hx =>
      rw [Config.view, hs.view_setSite hx (some l) x.relinks]
      rfl
    · rfl

/-! ## 2. Runs -/

variable {code : Routines}

/-- The two machines take the same steps. -/
theorem step_view {c : Config} (hs : c.heap.Sound c.stack) :
    Uncached.step code c.view = (step code c).map Config.view := by
  obtain ⟨h, p, stack⟩ := c
  cases p with
  | done outcome =>
    cases stack with
    | nil => rfl
    | cons f stack => exact Frame.finish_view hs
  | operate a next =>
    simp only [Uncached.step, step, Config.view, Operation.perform_view hs, Option.map_map]
    rfl
  | invoke i next => exact Invocation.enter_view (hs.resume next)

/-- The configuration `n` steps on, if the run gets that far. -/
def advance (code : Routines) : Nat → Config → Option Config
  | 0, c => some c
  | n + 1, c => (step code c).bind (advance code n)

/-- What every step keeps is kept by any number of them. -/
theorem advance_induct {P : Config → Prop} (hstep : ∀ {c d}, P c → step code c = some d → P d)
    {n : Nat} {c d : Config} (hc : P c) (hd : advance code n c = some d) : P d := by
  induction n generalizing c with
  | zero =>
    cases hd
    exact hc
  | succ n ih =>
    obtain ⟨e, he, hd⟩ := Option.bind_eq_some_iff.1 hd
    exact ih (hstep hc he) hd

theorem Reachable.advance {n : Nat} {c d : Config} (hc : Reachable code c)
    (hd : advance code n c = some d) : Reachable code d :=
  advance_induct .step hc hd

theorem sound_advance {n : Nat} {c d : Config} (hs : c.heap.Sound c.stack)
    (hd : advance code n c = some d) : d.heap.Sound d.stack :=
  advance_induct (P := fun c => c.heap.Sound c.stack) sound_step hs hd

theorem advance_view (n : Nat) {c : Config} (hs : c.heap.Sound c.stack) :
    Uncached.advance code n c.view = (advance code n c).map Config.view := by
  induction n generalizing c with
  | zero => rfl
  | succ n ih =>
    simp only [Uncached.advance, advance, step_view hs]
    cases hd : step code c with
    | none => rfl
    | some d => exact ih (sound_step hs hd)

/-- The outcome that a configuration has come to with `depth` calls still in progress. -/
def Config.outcome? (c : Config) (depth : Nat) : Option (Outcome × Heap) :=
  match c.program with
  | .done outcome => if c.stack.length = depth then some (outcome, c.heap) else none
  | _ => none

/-- Runs for at most `fuel` steps, until only `depth` calls are in progress and the last of the
others has come to an outcome. -/
def runTo (code : Routines) (depth : Nat) : Nat → Config → Option (Outcome × Heap)
  | 0, c => c.outcome? depth
  | fuel + 1, c => (c.outcome? depth).or ((step code c).bind (runTo code depth fuel))

/-- What the calling program on top of `stack` is answered when it calls `i`, if that takes at most
`fuel` steps once the call is entered. -/
def Invocation.answer (i : Invocation) (code : Routines) (fuel : Nat) (h : Heap)
    (stack : List Frame) : Option (Outcome × Heap) :=
  (i.enter code h stack).bind (runTo code stack.length fuel)

theorem Config.outcome?_view (c : Config) (depth : Nat) :
    c.view.outcome? depth = (c.outcome? depth).map Heap.viewAnswer := by
  obtain ⟨h, p, stack⟩ := c
  cases p with
  | operate | invoke => rfl
  | done outcome =>
    simp only [Uncached.Config.outcome?, Config.outcome?, Config.view, List.length_map]
    split <;> rfl

theorem runTo_view (depth fuel : Nat) {c : Config} (hs : c.heap.Sound c.stack) :
    Uncached.runTo code depth fuel c.view = (runTo code depth fuel c).map Heap.viewAnswer := by
  induction fuel generalizing c with
  | zero => exact c.outcome?_view depth
  | succ fuel ih =>
    simp only [Uncached.runTo, runTo, c.outcome?_view, step_view hs]
    cases c.outcome? depth with
    | some r => rfl
    | none =>
      cases hd : step code c with
      | none => rfl
      | some d => exact ih (sound_step hs hd)

-- A call that enters what an uncached call of `name` enters is answered as that is.
theorem Invocation.answer_view {i : Invocation} {h : Heap} {stack : List Frame} {name : String}
    {shape : Shape} {args : List Value} (hs : h.Sound stack)
    (hi : Uncached.enter i code h.view (stack.map (·.view)) =
      Uncached.called (stack.map (·.view)) (Uncached.dispatch code h.view name shape args))
    (fuel : Nat) :
    (i.answer code (fuel + 1) h stack).map Heap.viewAnswer =
      Uncached.answer code fuel h.view name shape args := by
  rw [Invocation.enter_view hs] at hi
  have hcall : (i.answer code (fuel + 1) h stack).map Heap.viewAnswer =
      ((i.enter code h stack).map Config.view).bind
        (Uncached.runTo code stack.length (fuel + 1)) := by
    unfold Invocation.answer
    cases hd : i.enter code h stack with
    | none => rfl
    | some d => exact (runTo_view _ _ (Invocation.sound_enter hs hd)).symm
  rw [hcall, hi, Uncached.answer]
  cases Uncached.dispatch code h.view name shape args with
  | none => rfl
  | some p =>
    rw [← List.length_map (·.view)]
    exact Uncached.runTo_above code fuel ⟨p.2, p.1, []⟩ (stack.map (·.view))

/-- A bound method is answered as an uncached call of it with the receiver put first. -/
theorem Invocation.answer_boundMethod {r : ReferenceId} {h : Heap} {stack : List Frame}
    (hs : h.Sound stack) (hr : r.index < h.references.length) (o : ObjectId) (name : String)
    (args : List Value) (fuel : Nat) :
    ((Invocation.reference r (.boundMethod o name) args).answer code (fuel + 1) h stack).map
        Heap.viewAnswer =
      Uncached.answer code fuel h.view name { arity := args.length + 1 } (.object o :: args) := by
  have hcall : Uncached.enter (.reference r (.boundMethod o name) args) code h.view
        (stack.map (·.view)) =
      Uncached.called (stack.map (·.view))
        (Uncached.dispatch code h.view name { arity := args.length + 1 } (.object o :: args)) :=
    if_pos hr
  exact Invocation.answer_view hs hcall fuel

/-- A function called directly is answered with what its body comes to. -/
theorem Invocation.answer_function {h : Heap} {stack : List Frame} (hs : h.Sound stack)
    (f : Callable) (args : List Value) (fuel : Nat) :
    ((Invocation.function f args).answer code fuel h stack).map Heap.viewAnswer =
      Uncached.runTo code 0 fuel ⟨h.view, f.body code args, []⟩ := by
  have hbody : (⟨h, f.body code args, stack⟩ : Config).view =
      (⟨h.view, f.body code args, []⟩ : Uncached.Config).above (stack.map (·.view)) := rfl
  have hcall : Uncached.runTo code stack.length fuel (⟨h, f.body code args, stack⟩ : Config).view =
      ((Invocation.function f args).answer code fuel h stack).map Heap.viewAnswer :=
    runTo_view _ _ hs
  rw [← hcall, hbody, ← List.length_map (·.view), Uncached.runTo_length]

/-! ## 3. Transparency -/

/-- **Remembered links are not seen.** From every configuration of a run, the two machines go on
in step. A call through a live handle is answered as an uncached call of the site's name and shape
is in the same state, and a bound method through a reference as an uncached call of that method
with one argument more than it was given, whatever site or reference served before. -/
theorem calls_uncached {c : Config} (hc : Reachable code c) :
    (∀ n, Uncached.advance code n c.view = (advance code n c).map Config.view) ∧
    (∀ (i : SiteHandle) (s : SiteId) (x : Site) (args : List Value) (next : Outcome → Program)
        (fuel : Nat),
      c.program = .invoke (.site i args) next →
      c.heap.handles[i.index]? = some ⟨s, true⟩ → c.heap.site? s = some x →
      ((Invocation.site i args).answer code (fuel + 1) c.heap (.resume next :: c.stack)).map
          Heap.viewAnswer =
        Uncached.answer code fuel c.heap.view x.name x.shape args) ∧
    (∀ (r : ReferenceId) (o : ObjectId) (name : String) (args : List Value)
        (next : Outcome → Program) (fuel : Nat),
      c.program = .invoke (.reference r (.boundMethod o name) args) next →
      r.index < c.heap.references.length →
      ((Invocation.reference r (.boundMethod o name) args).answer code (fuel + 1) c.heap
          (.resume next :: c.stack)).map Heap.viewAnswer =
        Uncached.answer code fuel c.heap.view name { arity := args.length + 1 }
          (.object o :: args)) := by
  have hs := hc.sound
  refine ⟨fun n => advance_view n hs, ?_, ?_⟩
  · intro i s x args next fuel _ hi hx
    have hview : c.heap.viewHandle ⟨s, true⟩ = ⟨x.name, x.shape, true⟩ := Heap.viewHandle_eq hx
    refine Invocation.answer_view (hs.resume next) ?_ fuel
    simp only [Uncached.enter, Heap.getElem?_handles_view, hi, Option.map_some,
      Option.bind_eq_bind, Option.bind_some, hview, if_true]
  · intro r o name args next fuel _ hr
    refine Invocation.answer_view (hs.resume next) ?_ fuel
    have hlength : c.heap.view.references = c.heap.references.length := rfl
    simp only [Uncached.enter]
    rw [if_pos (hlength ▸ hr)]

namespace Redefined

/-- Two functions that answer differently. -/
def routines : Routines := fun r _ => .done (.ok (.int (Int64.ofNat r.index)))

def method (r : Nat) : Value := .function ⟨"m", 1, false, ⟨r⟩⟩

/-- A property of two objects is bound anew after a site has called it on the one and a reference
on the other, and then both calls are made again. -/
def program : Program :=
  .operate .create fun o => .operate (.define o "m" (method 0)) fun _ =>
  .operate (.copy o) fun p =>
  .operate (.createSite "m" { arity := 1 }) fun s => .operate .createReference fun r =>
  .invoke (.site s [.object o]) fun _ => .invoke (.reference r (.boundMethod p "m") []) fun _ =>
  .operate (.define o "m" (method 1)) fun _ => .operate (.define p "m" (method 1)) fun _ =>
  .invoke (.site s [.object o]) fun _ => .invoke (.reference r (.boundMethod p "m") []) .done

/-- The configuration `n` steps on. -/
def after (n : Nat) : Config :=
  (advance routines n ⟨{}, program, []⟩).getD ⟨{}, program, []⟩

end Redefined

open Redefined in
-- Both remember a link to the old function, and the calls run the new one.
theorem calls_uncached_redefined :
    (after 13).heap.sites.map (·.cached.map (·.target)) =
        [some (.method ⟨"m", 1, false, ⟨0⟩⟩), some (.method ⟨"m", 1, false, ⟨0⟩⟩)] ∧
    ((Invocation.site ⟨0⟩ [.object ⟨0⟩]).answer routines 1 (after 13).heap
        [.resume fun _ => .invoke (.reference ⟨0⟩ (.boundMethod ⟨1⟩ "m") []) .done]).map
          Heap.viewAnswer =
      Uncached.answer routines 0 (after 13).heap.view "m" { arity := 1 } [.object ⟨0⟩] ∧
    ((Invocation.reference ⟨0⟩ (.boundMethod ⟨1⟩ "m") []).answer routines 1 (after 16).heap
        [.resume .done]).map Heap.viewAnswer =
      Uncached.answer routines 0 (after 16).heap.view "m" { arity := 1 } [.object ⟨1⟩] ∧
    (Uncached.answer routines 0 (after 13).heap.view "m" { arity := 1 } [.object ⟨0⟩]).map (·.1) =
      some (.ok (.int 1)) := by
  have hreachable : ∀ n c, advance routines n ⟨{}, program, []⟩ = some c → Reachable routines c :=
    fun n c hn => (Reachable.start program).advance hn
  obtain ⟨-, hsite, -⟩ := calls_uncached (hreachable 13 (after 13) rfl)
  obtain ⟨-, -, hreference⟩ := calls_uncached (hreachable 16 (after 16) rfl)
  exact ⟨rfl, hsite ⟨0⟩ ⟨0⟩ _ _ _ 0 rfl rfl rfl, hreference ⟨0⟩ ⟨1⟩ "m" [] _ 0 rfl (by decide), rfl⟩

end LateBind
