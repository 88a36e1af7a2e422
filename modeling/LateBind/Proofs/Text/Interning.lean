import Mathlib.Data.Finset.Card
import LateBind.Name

/-!
# Names for good

An interner holds two tables, from names to texts and from texts to names. Each stays the other one
read backwards whatever is asked, and what stands in them stays there. So a text has one name, a
name has one text, and both keep for as long as the interner is used.
-/

namespace LateBind

namespace Interner

/-! ## 1. Requests -/

/-- What can be asked of an interner. -/
inductive Request where
  | intern (s : String)
  | get (s : String)
  | lookup (n : Name)

/-- The text that a request interns. -/
def Request.text? : Request → Option String
  | intern s => some s
  | get _ | lookup _ => none

/-- What a request leaves of the interner. -/
def serve (t : Interner) : Request → Interner
  | .intern s => (t.intern s).2
  | .get _ | .lookup _ => t

/-- What the requests `rs` leave of a new interner. -/
def after (rs : List Request) : Interner := rs.foldl serve initial

/-- Among the requests `rs` one interned `s`, and `n` was the answer. -/
def Issued (rs : List Request) (s : String) (n : Name) : Prop :=
  ∃ before later, rs = before ++ .intern s :: later ∧ ((after before).intern s).1 = n

variable {t : Interner} {s u : String} {m n : Name} {r : Request} {rs : List Request}

/-! ## 2. Texts and their places -/

/-- No text has two names. -/
theorem nodup_texts (t : Interner) : t.texts.toList.Nodup := by
  rw [List.nodup_iff_getElem?_ne_getElem?]
  intro i j hij hj hsame
  -- The one index of a text is where it stands.
  have hget : ∀ k, t.texts.toList[k]? = t.texts.toList[j]? →
      t.indices[t.texts.toList[j]]? = some k := by
    intro k hk
    rw [t.agree, ← Array.getElem?_toList, hk]
    exact List.getElem?_eq_getElem hj
  have heq : i = j := Option.some.inj ((hget i hsame).symm.trans (hget j rfl))
  omega

theorem get?_isSome_iff : (t.get? s).isSome = true ↔ s ∈ t.texts.toList := by
  rw [Option.isSome_iff_exists, List.mem_iff_getElem?]
  constructor
  · intro ⟨n, hn⟩
    exact ⟨n.index, by rw [Array.getElem?_toList]; exact get?_eq_some_iff.1 hn⟩
  · intro ⟨i, hi⟩
    exact ⟨⟨i⟩, get?_eq_some_iff.2 (by rw [← Array.getElem?_toList]; exact hi)⟩

/-- The empty text is there from the start. -/
theorem get?_empty_text (t : Interner) : t.get? "" = some .empty := get?_eq_some_iff.2 t.first

-- A name is in use as long as its index is below the next one.
theorem get?_lookup (h : n.index < t.size) : t.get? (t.lookup n) = some n := by
  have hn : t.texts[n.index]? = some t.texts[n.index] := Array.getElem?_eq_getElem h
  rw [get?_eq_some_iff, lookup, hn, Option.getD_some]

theorem lookup_of_size_le (h : t.size ≤ n.index) : t.lookup n = "" := by
  rw [lookup, Array.getElem?_eq_none h, Option.getD_none]

/-! ## 3. What one request does -/

theorem get?_add (hs : t.indices[s]? = none) (u : String) :
    (t.add s hs).get? u = if s = u then some ⟨t.size⟩ else t.get? u := by
  show ((t.indices.insert s t.texts.size)[u]?).map Name.mk = _
  rw [Std.HashMap.getElem?_insert]
  by_cases hu : s = u
  · simp [hu, size]
  · simp [hu, get?]

/-- A request changes nothing, or it interns a text that is not there and puts it last. -/
theorem serve_cases (t : Interner) (r : Request) :
    (t.serve r = t ∧ ∀ s, r = .intern s → t.get? s ≠ none) ∨
    ∃ s hs, r = .intern s ∧ t.get? s = none ∧ t.serve r = t.add s hs := by
  cases r with
  | get s | lookup n => exact .inl ⟨rfl, nofun⟩
  | intern s =>
    rcases t.intern_cases s with ⟨n, hn, hintern⟩ | ⟨hs, hn, hintern⟩
    · refine .inl ⟨congrArg Prod.snd hintern, fun u hu => ?_⟩
      cases hu
      rw [hn]
      exact Option.some_ne_none n
    · exact .inr ⟨s, hs, rfl, hn, congrArg Prod.snd hintern⟩

/-- What has a name keeps it. -/
theorem get?_serve (r : Request) (h : t.get? s = some n) : (t.serve r).get? s = some n := by
  rcases t.serve_cases r with ⟨hsame, -⟩ | ⟨u, hu, -, hnone, hadded⟩
  · rw [hsame, h]
  · have hne : u ≠ s := by
      intro e
      rw [e, h] at hnone
      cases hnone
    rw [hadded, get?_add, if_neg hne, h]

theorem mem_texts_serve :
    s ∈ (t.serve r).texts.toList ↔ s ∈ t.texts.toList ∨ r = .intern s := by
  rcases t.serve_cases r with ⟨hsame, hknown⟩ | ⟨u, hu, rfl, -, hadded⟩
  · rw [hsame]
    refine (or_iff_left_of_imp fun hr => ?_).symm
    rw [← get?_isSome_iff, Option.isSome_iff_ne_none]
    exact hknown s hr
  · rw [hadded]
    simp [add, eq_comm]

/-! ## 4. What a run does -/

theorem get?_foldl_serve (rs : List Request) (h : t.get? s = some n) :
    (rs.foldl serve t).get? s = some n := by
  induction rs generalizing t with
  | nil => exact h
  | cons r rest ih => exact ih (get?_serve r h)

theorem mem_texts_foldl_serve :
    s ∈ (rs.foldl serve t).texts.toList ↔ s ∈ t.texts.toList ∨ .intern s ∈ rs := by
  induction rs generalizing t with
  | nil => simp
  | cons r rest ih =>
    rw [List.foldl_cons, ih, mem_texts_serve, List.mem_cons, or_assoc]
    exact or_congr_right (or_congr_left eq_comm)

theorem mem_texts_after : s ∈ (after rs).texts.toList ↔ s = "" ∨ .intern s ∈ rs := by
  rw [after, mem_texts_foldl_serve]
  simp [initial]

theorem get?_after_eq_none_iff : (after rs).get? s = none ↔ s ≠ "" ∧ .intern s ∉ rs := by
  rw [← not_iff_not, ← ne_eq, ← Option.isSome_iff_ne_none, get?_isSome_iff, mem_texts_after]
  simp only [not_and_or, not_not]

/-- A name that was issued is the text's from then on. -/
theorem Issued.get? (h : Issued rs s n) : (after rs).get? s = some n := by
  obtain ⟨before, later, rfl, rfl⟩ := h
  rw [after, List.foldl_append]
  exact get?_foldl_serve later ((after before).get?_intern s)

-- Besides the name of the empty text there is no other that is in use.
theorem exists_issued (h : n.index < (after rs).size) (hne : n ≠ .empty) :
    Issued rs ((after rs).lookup n) n := by
  have hget := get?_lookup h
  have hmem := mem_texts_after.1 (get?_isSome_iff.1 (Option.isSome_of_eq_some hget))
  rcases hmem with hempty | hmem
  · rw [hempty, get?_empty_text] at hget
    exact absurd (Option.some.inj hget).symm hne
  · obtain ⟨before, later, hrs⟩ := List.append_of_mem hmem
    have hissued : Issued rs ((after rs).lookup n) _ := ⟨before, later, hrs, rfl⟩
    rw [hissued.get?] at hget
    exact ⟨before, later, hrs, Option.some.inj hget⟩

/-- The empty text, and each other text once. -/
theorem size_after (rs : List Request) :
    (after rs).size = 1 + ((rs.filterMap Request.text?).toFinset.erase "").card := by
  have htexts : (after rs).texts.toList.toFinset =
      insert "" ((rs.filterMap Request.text?).toFinset.erase "") := by
    ext s
    have hinterned : (∃ r ∈ rs, r.text? = some s) ↔ .intern s ∈ rs := by
      constructor
      · intro ⟨r, hr, hs⟩
        cases r with
        | intern u => exact Option.some.inj hs ▸ hr
        | get u | lookup n => cases hs
      · intro hr
        exact ⟨_, hr, rfl⟩
    rw [List.mem_toFinset, mem_texts_after, Finset.mem_insert, Finset.mem_erase, List.mem_toFinset,
      List.mem_filterMap, hinterned]
    by_cases hs : s = "" <;> simp [hs]
  have hcard := congrArg Finset.card htexts
  rw [List.toFinset_card_of_nodup (nodup_texts _), Finset.card_insert_of_notMem (by simp)] at hcard
  rw [size, ← Array.length_toList, hcard, Nat.add_comm]

end Interner

open Interner in
/-- **Names are for good.** Whatever was asked of an interner so far, two texts that were interned
have the same name just if they are equal. A name that was answered has its text, and the text has
that name, from then on. The texts that have a name are those that were interned and the empty one,
which has the first; interning one of them again answers with its name. Any other text takes the
next index. No other request changes anything, so there are as many names as texts other than the
empty one, and one for that, and each is the name of its own text. A name that was never answered
has the empty text. -/
theorem interned_for_good (rs : List Interner.Request) :
    let t := after rs
    (∀ s s' n n', Issued rs s n → Issued rs s' n' → (n = n' ↔ s = s')) ∧
    (∀ s n, Issued rs s n → t.lookup n = s ∧ t.get? s = some n) ∧
    (∀ s, (t.get? s).isSome = true ↔ s = "" ∨ .intern s ∈ rs) ∧
    t.get? "" = some .empty ∧
    (∀ s n, t.get? s = some n → (t.intern s).1 = n) ∧
    (∀ s, s ≠ "" → .intern s ∉ rs →
      (t.intern s).1 = ⟨t.size⟩ ∧ (t.serve (.intern s)).size = t.size + 1) ∧
    (∀ r, (∀ s, r = .intern s → s = "" ∨ .intern s ∈ rs) → t.serve r = t) ∧
    t.size = 1 + ((rs.filterMap Request.text?).toFinset.erase "").card ∧
    (∀ n, n.index < t.size → t.get? (t.lookup n) = some n) ∧
    ∀ n, (∀ s, ¬ Issued rs s n) → t.lookup n = "" := by
  intro t
  have hknown : ∀ s, (t.get? s).isSome = true ↔ s = "" ∨ .intern s ∈ rs := fun s =>
    get?_isSome_iff.trans mem_texts_after
  refine ⟨fun s s' n n' hn hn' => ⟨fun hname => ?_, fun htext => ?_⟩, fun s n hn => ?_, hknown,
    t.get?_empty_text, fun s n hn => ?_, fun s hs hnew => ?_, fun r hr => ?_, size_after rs,
    fun n hn => get?_lookup hn, fun n hnever => ?_⟩
  · rw [← lookup_of_get? hn.get?, ← lookup_of_get? hn'.get?, hname]
  · exact Option.some.inj (hn.get?.symm.trans (htext ▸ hn'.get?))
  · exact ⟨lookup_of_get? hn.get?, hn.get?⟩
  · rcases t.intern_cases s with ⟨n', hn', hintern⟩ | ⟨-, hnone, -⟩
    · rw [hintern]
      exact Option.some.inj (hn'.symm.trans hn)
    · rw [hnone] at hn
      cases hn
  · have hnone : t.get? s = none := get?_after_eq_none_iff.2 ⟨hs, hnew⟩
    rcases t.intern_cases s with ⟨n, hn, -⟩ | ⟨_, -, hintern⟩
    · rw [hnone] at hn
      cases hn
    · rw [serve, hintern]
      exact ⟨rfl, Array.size_push s⟩
  · rcases t.serve_cases r with ⟨hsame, -⟩ | ⟨s, -, hs, hnone, -⟩
    · exact hsame
    · have hsome := (hknown s).2 (hr s hs)
      rw [hnone] at hsome
      cases hsome
  · rcases Nat.lt_or_ge n.index t.size with hlt | hge
    · by_cases hempty : n = .empty
      · rw [hempty]
        exact lookup_of_get? t.get?_empty_text
      · exact absurd (exists_issued hlt hempty) (hnever _)
    · exact lookup_of_size_le hge

end LateBind
