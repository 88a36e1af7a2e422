import LateBind.Proofs.Linking.Partition
import LateBind.Proofs.Unit.Assembly

/-!
# Call sites identify calls

What is known of a call of a published unit is kept by its site, so no two calls may have one site,
whatever was made, replaced, refused or thrown away while the unit was put together. A call comes
after those in its arguments, which had to be there when it was made. Its receiver had not: it is put
on the call later.
-/

namespace LateBind

/-- The sites of the calls of `m` identify them, where `made` are all the calls ever made and `taken`
all the sites ever taken. -/
structure Module.CallsIdentified (m : Module) (made : List NamedCall) (taken : List CallSiteId) :
    Prop where
  /-- The calls are those that stand in some function, at any depth. -/
  all : ∀ d, d ∈ m.calls ↔
    d.site?.isSome = true ∧ ∃ id f bs, m.function? id = some f ∧ f.Holds bs d
  /-- No two of them have the same site. -/
  distinct : (m.calls.filterMap Expr.site?).Nodup
  /-- Each has a site that was taken, below their number. -/
  below : ∀ d ∈ m.calls, ∀ s, d.site? = some s → s ∈ taken ∧ s.index < m.callSites
  /-- The calls in the arguments of a call have smaller sites. -/
  arguments : ∀ d ∈ m.calls, ∀ c, d.namedCall? = some c →
    ∀ x ∈ c.args, ∀ e, x.Has e → ∀ t, e.site? = some t → t.index < c.site.index
  /-- The calls in the receiver of a call have smaller sites if they were made first, and only then. -/
  receiver : ∀ c x type, c.method x type ∈ m.calls →
    ∀ e, x.Has e → ∀ d, e.namedCall? = some d →
      (d.site.index < c.site.index ↔ [d, c].Sublist made)
  /-- No site was taken twice. -/
  takenOnce : taken.Nodup
  count : m.callSites = taken.length

namespace Assembly

variable {a : Assembly} {m : Module}

-- What stands in a published unit stood in the bodies that it was built with.
theorem mem_standing_of_mem_calls (hm : a.builder.publish = .ok m) {d : Expr} (hd : d ∈ m.calls)
    {c : NamedCall} (hc : d.namedCall? = some c) : c ∈ a.standing := by
  obtain ⟨-, id, f, bs, hf, hd⟩ := Module.mem_calls.1 hd
  obtain ⟨-, rfl⟩ := Builder.publish_eq_ok hm
  obtain ⟨x, hx, rfl⟩ := Option.map_eq_some_iff.1 ((a.builder.getElem?_withCaptures id).symm.trans hf)
  exact List.mem_flatMap.2 ⟨x, List.mem_of_getElem? hx, hd.mem_calls hc⟩

theorem Sound.callsIdentified (ha : a.Sound) (hm : a.builder.publish = .ok m) :
    m.CallsIdentified a.made a.taken := by
  have hcount : m.callSites = a.builder.nextSite := by
    obtain ⟨-, rfl⟩ := Builder.publish_eq_ok hm
    rfl
  have hmade : ∀ d ∈ m.calls, ∀ c, d.namedCall? = some c → c ∈ a.made := fun d hd c hc =>
    ha.standing_subset (mem_standing_of_mem_calls hm hd hc)
  refine ⟨fun d => Module.mem_calls, ?_, fun d hd s hs => ?_, fun d hd c hc x hx e hxe t ht => ?_,
    fun c x type hc e hxe d hd => ?_, ha.nodup_taken, hcount.trans ha.length_taken.symm⟩
  · rw [Module.filterMap_site?_calls, Builder.sites_of_publish hm, ← map_site_standing]
    exact ha.nodup_standing
  · rw [d.site?_eq] at hs
    obtain ⟨c, hc, rfl⟩ := Option.map_eq_some_iff.1 hs
    rw [hcount]
    exact ⟨ha.mem_taken (hmade d hd c hc), ha.below c (hmade d hd c hc)⟩
  · rw [e.site?_eq] at ht
    obtain ⟨c', hc', rfl⟩ := Option.map_eq_some_iff.1 ht
    refine ha.arguments c (hmade d hd c hc) c' ?_
    rw [exprCalls_eq]
    exact List.mem_flatMap.2 ⟨x, hx, hxe.mem_calls hc'⟩
  · -- What stands on the receiver is a call of the unit as well.
    have hinside : e ∈ m.calls :=
      Module.mem_calls_of_has hc (.receiver hxe) (by rw [e.site?_eq, hd]; rfl)
    exact ha.site_lt_iff (hmade e hinside d hd) (hmade _ hc c rfl)

end Assembly

/-- **Call sites identify calls.** However a unit is put together of calls that are made first and
stand in one place each, if it is published, then no two of its calls have the same site, at whatever
depth and in whichever functions they stand; all sites are below the number that the unit tells, which
is the number of sites ever taken; and a call comes after those in its arguments, and after a call in
its receiver exactly if that was made before it. -/
theorem calls_identified {unit : Name} {a : Assembly} (ha : a.Of unit) {names : Interner}
    {m : Module} (hm : a.builder.finish names = .ok m) : m.CallsIdentified a.made a.taken :=
  ha.sound.callsIdentified (Builder.publish_of_finish hm)

/-- A function with a body of one expression. -/
def Function.ofExpr (name : Name) (e : Expr) : Function where
  name := name
  visibility := .anyUnit
  kind := .topLevel
  span := .dummy
  body := some (.mk [.expr e .dummy] .dummy)

/-- The edit that gives a function a body of one expression. -/
def Edit.ofExpr (e : Expr) : Edit := .body (.mk [.expr e .dummy] .dummy)

namespace MadeByTurns

def first : NamedCall := ⟨⟨9⟩, [], ⟨0⟩, .dummy⟩

def second : NamedCall := ⟨⟨8⟩, [], ⟨2⟩, .dummy⟩

/-- The call of a method on the result of the first call, with the result of the second. -/
def third : NamedCall := ⟨⟨7⟩, [second.plain false], ⟨3⟩, .dummy⟩

def fourth : NamedCall := ⟨⟨6⟩, [], ⟨4⟩, .dummy⟩

def unit : Module where
  name := ⟨1⟩
  imports := []
  functions := [.ofExpr ⟨2⟩ (third.method (first.plain false) none)]
  callSites := 5

/-- One site is taken for nothing, a body is replaced, and a last one has no function to go to. -/
theorem exists_of : ∃ a : Assembly, a.Of ⟨1⟩ ∧ a.made = [first, second, third, fourth] ∧
    a.taken = [⟨0⟩, ⟨1⟩, ⟨2⟩, ⟨3⟩, ⟨4⟩] ∧ a.builder.finish .initial = .ok unit := by
  have hone : ∀ {a : Assembly} {c : NamedCall}, c ∈ a.made → [c] ⊆ a.made := fun hc =>
    List.cons_subset.2 ⟨hc, List.nil_subset _⟩
  refine ⟨_, Assembly.Of.start
    |>.step (.declare ⟨2⟩ .anyUnit .topLevel .dummy) ⟨List.nil_subset _, List.nodup_nil⟩
    |>.step (.call ⟨9⟩ [] .dummy) ⟨List.nil_subset _, List.nodup_nil⟩
    |>.step .allocate ⟨List.nil_subset _, List.nodup_nil⟩
    |>.step (.call ⟨8⟩ [] .dummy) ⟨List.nil_subset _, List.nodup_nil⟩
    |>.step (.call ⟨7⟩ [second.plain false] .dummy) ⟨hone (.tail _ (.head _)), List.nodup_nil⟩
    |>.step (.edit ⟨0⟩ (.body default)) ⟨List.nil_subset _, List.nodup_nil⟩
    |>.step (.edit ⟨0⟩ (.ofExpr (third.method (first.plain false) none)))
      ⟨?_, .of_map NamedCall.site (by decide)⟩
    |>.step (.call ⟨6⟩ [] .dummy) ⟨List.nil_subset _, .of_map NamedCall.site (by decide)⟩
    |>.step (.edit ⟨5⟩ (.ofExpr (fourth.plain false)))
      ⟨hone (.tail _ (.tail _ (.tail _ (.head _)))), .of_map NamedCall.site (by decide)⟩,
    rfl, rfl, rfl⟩
  exact List.cons_subset.2 ⟨.tail _ (.tail _ (.head _)),
    List.cons_subset.2 ⟨.head _, hone (.tail _ (.head _))⟩⟩

end MadeByTurns

open MadeByTurns in
theorem calls_identified_by_turns :
    unit.calls.filterMap Expr.site? = [⟨3⟩, ⟨0⟩, ⟨2⟩] ∧
      unit.CallsIdentified [first, second, third, fourth] [⟨0⟩, ⟨1⟩, ⟨2⟩, ⟨3⟩, ⟨4⟩] := by
  obtain ⟨a, ha, hmade, htaken, hfinish⟩ := exists_of
  exact ⟨rfl, hmade ▸ htaken ▸ calls_identified ha hfinish⟩

namespace ReceiverMadeLast

def call : NamedCall := ⟨⟨7⟩, [], ⟨0⟩, .dummy⟩

def receiver : Expr := .call ⟨9⟩ [] ⟨1⟩ false .dummy

def unit : Module where
  name := ⟨1⟩
  imports := []
  functions := [.ofExpr ⟨2⟩ (call.method receiver none)]
  callSites := 2

theorem exists_of : ∃ a : Assembly, a.Of ⟨1⟩ ∧ a.builder.finish .initial = .ok unit :=
  ⟨_, Assembly.Of.start
    |>.step (.declare ⟨2⟩ .anyUnit .topLevel .dummy) ⟨List.nil_subset _, List.nodup_nil⟩
    |>.step (.call ⟨7⟩ [] .dummy) ⟨List.nil_subset _, List.nodup_nil⟩
    |>.step (.call ⟨9⟩ [] .dummy) ⟨List.nil_subset _, List.nodup_nil⟩
    |>.step (.edit ⟨0⟩ (.ofExpr (call.method receiver none)))
      ⟨List.Subset.refl _, .of_map NamedCall.site (by decide)⟩, rfl⟩

end ReceiverMadeLast

open ReceiverMadeLast in
/-- A call may be made before one in its receiver, and then its site is the smaller one. -/
theorem site_lt_receiver :
    ¬∀ (unit : Name) (a : Assembly) (names : Interner) (m : Module), a.Of unit →
      a.builder.finish names = .ok m →
      ∀ d ∈ m.calls, ∀ e, d.Has e → e ≠ d →
        ∀ s t, d.site? = some s → e.site? = some t → t.index < s.index := by
  intro h
  obtain ⟨a, ha, hfinish⟩ := exists_of
  have hlt := h ⟨1⟩ a .initial unit ha hfinish (call.method receiver none) List.mem_cons_self receiver
    (.receiver .self) nofun ⟨0⟩ ⟨1⟩ rfl rfl
  exact absurd hlt (by decide)

end LateBind
