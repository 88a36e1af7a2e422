import LateBind.Proofs.Dynamic.Transparency

/-!
# What a valid token means

While a link is there and its token is valid, the link says what binding its site anew would say.
The token is valid from the moment the link was made until the property it is bound to is changed,
and nothing else ends that.
-/

namespace LateBind

/-! ## 1. Valid links are current -/

/-- What `t` says holds of a property `name` that is bound to `p`, or absent. -/
def Target.Serves (t : Target) (name : String) (p : Option Value) : Prop :=
  match t with
  | .method f => p = some (.function f)
  | .constant v => p = some v ∧ ∀ f, v ≠ .function f
  | .define n => n = name ∧ ∀ f, p ≠ some (.function f)
  | .missing n => n = name ∧ p = none

theorem Object.serves_of_target {x : Object} {name : String} {shape : Shape} {t : Target}
    (ht : x.target name shape = .ok t) : t.Serves name (x.properties.get? name) := by
  unfold target at ht
  cases hp : x.properties.get? name with
  | none =>
    simp only [hp] at ht
    split at ht
    · cases ht
      exact ⟨rfl, fun f e => nomatch e⟩
    · cases ht
      exact ⟨rfl, rfl⟩
  | some v =>
    simp only [hp] at ht
    split at ht
    next f e =>
      cases e
      split at ht
      · cases ht
      · cases ht
        rfl
    next w hw e =>
      cases e
      split at ht
      · cases ht
        exact ⟨rfl, hw⟩
      · split at ht
        · cases ht
          exact ⟨rfl, fun f e => hw f (Option.some.inj e)⟩
        · cases ht
    next e => cases e

-- What binding the site of a valid link anew comes to.
theorem Heap.Honours.link_eq {h : Heap} {l : Link} (hl : h.Honours l)
    (hv : h.isValid l.token = true) (stack : List Frame) :
    ∃ k, h.link stack l.owner l.name l.shape = some (.ok ({ l with token := ⟨h.issued⟩ }, k)) := by
  obtain ⟨x, hx, -, ht⟩ := hl.current hv
  exact ⟨h.grant stack l.owner x l.name, by rw [h.link_eq, hx, Option.map_some, ht]; rfl⟩

/-- **A valid link is never stale.** A link that is still there and whose token is valid says what
its property is now, and binding its site anew would succeed and say the same. So a call that goes
straight to its target, through a stub or through the memory of a site, runs what a new link would
run. -/
theorem valid_link_current {code : Routines} {c : Config} (hc : Reachable code c) {l : Link}
    (hl : l ∈ c.heap.links c.stack) (hv : c.heap.isValid l.token = true) :
    (∃ x, c.heap.object? l.owner = some x ∧
      l.target.Serves l.name (x.properties.get? l.name)) ∧
    ∀ stack : List Frame, ∃ fresh k,
      c.heap.link stack l.owner l.name l.shape = some (.ok (fresh, k)) ∧
      fresh.target = l.target ∧
      (∀ s x args, c.heap.stub? s = some x → x.link = l → c.heap.guards l args = true →
        (Invocation.stub s args).enter code c.heap stack =
          (fresh.target.enter code c.heap args).map fun p => ⟨p.2, p.1, .stub x :: stack⟩) ∧
      ∀ s x args, c.heap.site? s = some x → x.cached = some l → c.heap.guards l args = true →
        dispatch code c.heap s args stack =
          (fresh.target.enter code c.heap args).map fun p =>
            ⟨p.2, p.1, .site s (some l) none :: stack⟩ := by
  have hhonoured := hc.sound.honoured l hl
  refine ⟨?_, fun stack => ?_⟩
  · obtain ⟨x, hx, -, ht⟩ := hhonoured.current hv
    exact ⟨x, hx, Object.serves_of_target ht⟩
  · obtain ⟨k, hk⟩ := hhonoured.link_eq hv stack
    refine ⟨_, k, hk, rfl, fun s x args hx hxl hg => ?_, fun s x args hx hxl hg => ?_⟩
    · subst hxl
      simp only [Invocation.enter, hx, hg, if_true, Option.bind_eq_bind, Option.bind_some]
      cases x.link.target.enter code c.heap args <;> rfl
    · simp only [dispatch, hx, hxl, Option.filter_some, hg, if_true, Option.bind_eq_bind,
        Option.bind_some]
      cases l.target.enter code c.heap args <;> rfl

namespace OtherChanged

/-- A method is linked by a stub and by a site, and then other properties of its object change. -/
def program : Program :=
  .operate .create fun o => .operate (.define o "m" (.function ⟨"m", 1, false, ⟨0⟩⟩)) fun _ =>
  .operate (.link o "m" { arity := 1 } ⟨1⟩) fun _ => .operate (.createSite "m" { arity := 1 }) fun s =>
  .invoke (.site s [.object o]) fun _ => .operate (.define o "x" (.int 1)) fun _ =>
  .operate (.undefine o "x") fun _ => .done (.ok .null)

def routines : Routines := fun r _ => .done (.ok (.int (Int64.ofNat r.index)))

/-- The configuration at the end. -/
def last : Config := (advance routines 9 ⟨{}, program, []⟩).getD ⟨{}, program, []⟩

/-- What the stub holds. -/
def held : Link := ⟨⟨0⟩, ⟨0⟩, "m", { arity := 1 }, .method ⟨"m", 1, false, ⟨0⟩⟩⟩

end OtherChanged

open OtherChanged in
-- The stub is valid still, and calling it runs what a new link would run.
theorem valid_link_current_other_changed :
    held ∈ last.heap.links last.stack ∧ last.heap.isValid held.token = true ∧
      ∃ fresh k, last.heap.link [] ⟨0⟩ "m" { arity := 1 } = some (.ok (fresh, k)) ∧
        fresh.target = held.target ∧
        (Invocation.stub ⟨0⟩ [.object ⟨0⟩]).enter routines last.heap [] =
          (fresh.target.enter routines last.heap [.object ⟨0⟩]).map fun p =>
            ⟨p.2, p.1, [.stub ⟨held, ⟨1⟩⟩]⟩ := by
  have hlast : Reachable routines last :=
    (Reachable.start program).advance (n := 9) (d := last) rfl
  have hl : held ∈ last.heap.links last.stack := Heap.mem_links.2 (.inl ⟨⟨held, ⟨1⟩⟩, by decide, rfl⟩)
  obtain ⟨-, hanew⟩ := valid_link_current hlast hl (by decide)
  obtain ⟨fresh, k, hk, ht, hstub, -⟩ := hanew []
  exact ⟨hl, by decide, fresh, k, hk, ht, hstub ⟨0⟩ _ _ rfl rfl (by decide)⟩

end LateBind
