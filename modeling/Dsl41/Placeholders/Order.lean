import Dsl41.Placeholders.Passes

/-!
# The order of the lines

A run that returns finds a map that the entries define in some order. Where one replacement by
that map is all that each entry needs, every order of the lines gives it; where an entry needs a
second one, there is an order in which the passes end before it.
-/

namespace Dsl41.Placeholders

open Dsl41.Infra

variable {s s' : Pass} {e : Entry} {l rest pending entries done left : List Entry}
  {res : Resolution} {r m d : Dict Text Text}

/-! ## What a run returns -/

/-- The entries define a map, and each is whole and steady for it. -/
structure Plain (entries : List Entry) (m : Dict Text Text) : Prop where
  nodup : entries.Nodup
  resolves : Resolves entries m
  whole : ∀ e ∈ entries, Whole m e
  steady : ∀ e ∈ entries, Steady m e

theorem Plain.final (hp : Plain entries m) : Final entries m m := by
  obtain ⟨l, hperm, hdef⟩ := hp.resolves
  obtain ⟨hbound, hnamed, hdistinct, hisName⟩ :=
    hdef.final Dict.Sub.refl fun e he => hp.steady e (hperm.subset he)
  exact ⟨fun e he => hbound e (hperm.symm.subset he), fun name hname => by
    obtain ⟨e, he, h⟩ := hnamed name hname
    exact ⟨e, hperm.subset he, h⟩, (hperm.map _).nodup_iff.mp hdistinct,
    fun e he => hisName e (hperm.symm.subset he)⟩

theorem Split.final (hp : Plain entries m) (h : Split entries r pending done left)
    (hsub : r.Sub m) : Final done r m :=
  h.defines.final hsub fun e he => hp.steady e (h.perm.subset (List.mem_append_left _ he))

/-- An entry without references left has its final name and value. -/
theorem Later.final {e' : Entry} (h : Later r e e') (hsub : r.Sub m) (hs : Steady m e)
    (hrefs : (e'.substitute r).refs = []) :
    (e'.substitute r).key = e.name m ∧ (e'.substitute r).value = substituteKnown e.value m := by
  obtain ⟨hkey, hvalue⟩ := List.append_eq_nil_iff.mp hrefs
  have hk : Settles r e.key (e'.substitute r).key := ⟨h.1.pass, hkey⟩
  have hv : Settles r e.value (e'.substitute r).value := ⟨h.2.pass, hvalue⟩
  exact ⟨(hk.once hsub hs.1).1, (hv.once hsub hs.2).1⟩

/-- No turn makes a finding, and what is resolved is the map's. -/
theorem Turn.plain (hp : Plain entries m) (hturn : Turn s e s')
    (h : Split entries s.resolved (s.still ++ e :: rest) done left) (hsub : s.resolved.Sub m)
    (hok : s.findings = []) : s'.findings = [] ∧ s'.resolved.Sub m := by
  obtain ⟨left₁, x, left₂, rfl, -, hx, -⟩ := h.turn
  have hmem : x ∈ done ++ (left₁ ++ x :: left₂) := by simp
  have hx' : x ∈ entries := h.perm.subset hmem
  obtain ⟨hbound, -, hdistinct, hisName⟩ := hp.final
  have hfresh : s.resolved.get? (x.name m) = none := by
    by_contra hne
    obtain ⟨y, hy, hname⟩ := (h.final hp hsub).named _ hne
    have hnodup := (h.perm.map (·.name m)).nodup_iff.mpr hdistinct
    rw [List.map_append] at hnodup
    exact (List.nodup_append.mp hnodup).2.2 _ (List.mem_map_of_mem hy) _
      (List.mem_map_of_mem (show x ∈ left₁ ++ x :: left₂ by simp)) hname.symm
  cases hturn with
  | waits => exact ⟨hok, hsub⟩
  | fails hrefs hbad =>
    rw [(hx.final hsub (hp.steady x hx') hrefs).1, hisName x hx', hfresh] at hbad
    simp at hbad
  | defines hrefs =>
    obtain ⟨hkey, hvalue⟩ := hx.final hsub (hp.steady x hx') hrefs
    refine ⟨hok, ?_⟩
    rw [hkey, hvalue]
    exact hsub.set (hbound x hx')

/-- An entry as its one visit left it: a name it refers to is defined, and was not resolved. -/
inductive Missed (l : List Entry) (r m resolved : Dict Text Text) : Entry → Prop
  | intro {e : Entry} {q : Dict Text Text} {name : Text} : e ∈ l → Whole m e →
      q.Sub resolved → name ∈ e.refs → r.get? name ≠ none → resolved.get? name = none →
      Missed l r m resolved (e.substitute q)

/-- What the first pass leaves waits in the second pass too. -/
theorem Missed.waits (h : Missed l r m d e) (hd : d.Sub m)
    (hs : ∀ e ∈ l, Whole m e → Steady m e) : (e.substitute d).refs ≠ [] := by
  obtain ⟨he, hw, hq, hn, -, hmiss⟩ := h
  obtain ⟨hskey, hsvalue⟩ := hs _ he hw
  intro hrefs
  obtain ⟨hk, hv⟩ := List.append_eq_nil_iff.mp hrefs
  obtain hn | hn := List.mem_append.mp hn
  · have hk' : refs (substituteKnown (substituteKnown _ _) d) = [] := hk
    rw [hskey _ d hq hd] at hk'
    exact refs_substituteKnown hn hmiss hk'
  · have hv' : refs (substituteKnown (substituteKnown _ _) d) = [] := hv
    rw [hsvalue _ d hq hd] at hv'
    exact refs_substituteKnown hn hmiss hv'

theorem Resolves.perm {entries' : List Entry} (h : Resolves entries m)
    (hp : entries.Perm entries') : Resolves entries' m :=
  h.imp fun _ h => ⟨h.1.trans hp, h.2⟩

end Dsl41.Placeholders
