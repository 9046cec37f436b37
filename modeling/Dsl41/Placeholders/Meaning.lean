import Dsl41.Placeholders.Properties

/-!
# What a list of entries defines

The meaning of a properties list without passes and without an order of its lines: a map that the
entries define one after the other, each from names that are already there. `Whole` and `Steady`
say when one replacement by that map is all that an entry needs.
-/

namespace Dsl41.Placeholders

open Dsl41.Infra

/-- Replace references over and over, as more and more names are bound. -/
inductive Rewrites : Dict Text Text → Text → Text → Prop
  | refl {r : Dict Text Text} {t : Text} : Rewrites r t t
  | grow {r r' : Dict Text Text} {t u : Text} : Rewrites r t u → r.Sub r' → Rewrites r' t u
  | pass {r : Dict Text Text} {t u : Text} : Rewrites r t u → Rewrites r t (substituteKnown u r)

/-- A text becomes one without references. -/
def Settles (r : Dict Text Text) (t u : Text) : Prop := Rewrites r t u ∧ refs u = []

/-- The entries, the last one first, define a map: each refers to the names before it and gives a
name of its own. -/
inductive Defines : List Entry → Dict Text Text → Prop
  | nil : Defines [] ∅
  | cons {l : List Entry} {r : Dict Text Text} {e : Entry} {name value : Text} :
      Defines l r → Settles r e.key name → Settles r e.value value → isName name = true →
      r.get? name = none → Defines (e :: l) (r.set name value)

/-- The entries define the map in some order: their references are acyclic and defined. -/
def Resolves (entries : List Entry) (m : Dict Text Text) : Prop :=
  ∃ l, l.Perm entries ∧ Defines l m

/-- One replacement leaves no reference: none stands in another, no value puts one together. -/
def Whole (m : Dict Text Text) (e : Entry) : Prop := (e.substitute m).refs = []

/-- A text in which replacing in steps gives what replacing at once gives. -/
def SteadyText (m : Dict Text Text) (t : Text) : Prop :=
  ∀ r r' : Dict Text Text, r.Sub r' → r'.Sub m →
    substituteKnown (substituteKnown t r) r' = substituteKnown t r'

def Steady (m : Dict Text Text) (e : Entry) : Prop := SteadyText m e.key ∧ SteadyText m e.value

instance (m : Dict Text Text) (e : Entry) : Decidable (Whole m e) :=
  inferInstanceAs (Decidable (_ = _))

variable {t u : Text} {r r' m : Dict Text Text} {e d : Entry} {l entries : List Entry}

/-! ## Replacing in steps -/

/-- The names of a text whose references are all replaced are bound. -/
theorem bound_of_refs (h : refs (substituteKnown t r) = []) :
    ∀ name ∈ refs t, r.get? name ≠ none :=
  fun _ hname hr => refs_substituteKnown hname hr h

/-- What is replaced within a map is replaced by the map. -/
theorem substituteKnown_of_sub (hsub : r.Sub m) (hbound : ∀ name ∈ refs t, r.get? name ≠ none) :
    substituteKnown t r = substituteKnown t m :=
  substituteKnown_congr _ fun name hname => hsub.get?_eq (hbound name hname)

/-- Rewriting a steady text is one replacement. -/
theorem Rewrites.once (h : Rewrites r t u) (hsub : r.Sub m) (hs : SteadyText m t) :
    ∃ r', r'.Sub r ∧ u = substituteKnown t r' := by
  induction h with
  | refl => exact ⟨∅, Dict.sub_empty, substituteKnown_empty.symm⟩
  | grow _ hgrow ih =>
    obtain ⟨q, hq, rfl⟩ := ih (hgrow.trans hsub) hs
    exact ⟨q, hq.trans hgrow, rfl⟩
  | @pass r t u h ih =>
    obtain ⟨q, hq, rfl⟩ := ih hsub hs
    exact ⟨r, Dict.Sub.refl, hs q r hq hsub⟩

/-- What a steady text settles to is its replacement by the map, and its names are bound. -/
theorem Settles.once (h : Settles r t u) (hsub : r.Sub m) (hs : SteadyText m t) :
    u = substituteKnown t m ∧ ∀ name ∈ refs t, r.get? name ≠ none := by
  obtain ⟨hrw, hu⟩ := h
  obtain ⟨q, hq, rfl⟩ := hrw.once hsub hs
  have hbound := bound_of_refs hu
  refine ⟨substituteKnown_of_sub (hq.trans hsub) hbound, fun name hname => ?_⟩
  rw [← hq.get?_eq (hbound name hname)]
  exact hbound name hname

/-- The name an entry has in the end. -/
def Entry.name (e : Entry) (m : Dict Text Text) : Text := substituteKnown e.key m

/-- What `Defines` says of its entries, once replaced by a map it lies in. -/
structure Final (l : List Entry) (r m : Dict Text Text) : Prop where
  bound : ∀ e ∈ l, r.get? (e.name m) = some (substituteKnown e.value m)
  named : ∀ name, r.get? name ≠ none → ∃ e ∈ l, name = e.name m
  distinct : (l.map (·.name m)).Nodup
  isName : ∀ e ∈ l, isName (e.name m) = true

theorem Defines.final (h : Defines l r) (hsub : r.Sub m) (hs : ∀ e ∈ l, Steady m e) :
    Final l r m := by
  induction h with
  | nil => exact ⟨nofun, fun name hname => absurd rfl hname, List.nodup_nil, nofun⟩
  | @cons l r e name value _ hkey hvalue hname hfresh ih =>
    have hgrow : r.Sub (r.set name value) := Dict.sub_set hfresh
    have hsub' : r.Sub m := hgrow.trans hsub
    obtain ⟨hbound, hnamed, hdistinct, hisName⟩ :=
      ih hsub' fun d hd => hs d (List.mem_cons_of_mem _ hd)
    obtain ⟨hskey, hsvalue⟩ := hs e List.mem_cons_self
    have hkey' : name = e.name m := (hkey.once hsub' hskey).1
    have hvalue' : value = substituteKnown e.value m := (hvalue.once hsub' hsvalue).1
    constructor
    · intro d hd
      obtain rfl | hd := List.mem_cons.mp hd
      · rw [← hkey', Dict.get?_set_self, hvalue']
      · exact hgrow _ _ (hbound d hd)
    · intro x hx
      by_cases hxn : x = name
      · exact ⟨e, List.mem_cons_self, hxn.trans hkey'⟩
      · rw [Dict.get?_set_ne hxn] at hx
        obtain ⟨d, hd, hdx⟩ := hnamed x hx
        exact ⟨d, List.mem_cons_of_mem _ hd, hdx⟩
    · rw [List.map_cons, List.nodup_cons]
      refine ⟨fun hm => ?_, hdistinct⟩
      obtain ⟨d, hd, hdname⟩ := List.mem_map.mp hm
      have hd' := hbound d hd
      rw [hdname, ← hkey', hfresh] at hd'
      cases hd'
    · intro d hd
      obtain rfl | hd := List.mem_cons.mp hd
      · rwa [← hkey']
      · exact hisName d hd

end Dsl41.Placeholders
