import Dsl41.Placeholders.Meaning

/-!
# The passes

What one turn of a pass does, what a pass that makes no progress says of its entries, and the
invariant of a run: the entries that are done define the names resolved so far, the others are
rewritten by them.
-/

namespace Dsl41.Placeholders

open Dsl41.Infra

variable {s : Pass} {e : Entry} {l rest pending entries : List Entry} {res : Resolution}
  {r m : Dict Text Text}

/-! ## One turn -/

/-- What one turn of a pass does with an entry. -/
inductive Turn (s : Pass) (e : Entry) : Pass → Prop
  | waits : (e.substitute s.resolved).refs ≠ [] →
      Turn s e { s with still := s.still ++ [e.substitute s.resolved] }
  | fails {f : Finding} : (e.substitute s.resolved).refs = [] →
      isName (e.substitute s.resolved).key = false ∨
        s.resolved.get? (e.substitute s.resolved).key ≠ none →
      Turn s e { s with findings := s.findings ++ [f], progressed := true }
  | defines : (e.substitute s.resolved).refs = [] →
      isName (e.substitute s.resolved).key = true →
      s.resolved.get? (e.substitute s.resolved).key = none →
      Turn s e { s with
        resolved := s.resolved.set (e.substitute s.resolved).key (e.substitute s.resolved).value
        provenance := s.provenance.set (e.substitute s.resolved).key e
        progressed := true }

variable {s' : Pass}

theorem Turn.progressed (h : Turn s e s') (hp : s.progressed = true) : s'.progressed = true := by
  cases h with
  | waits => exact hp
  | fails => rfl
  | defines => rfl

theorem Turn.findings (h : Turn s e s') (hf : s.findings ≠ []) : s'.findings ≠ [] := by
  cases h with
  | waits => exact hf
  | fails => simp
  | defines => exact hf

/-- An entry as the passes so far have left it. -/
def Later (r : Dict Text Text) (e e' : Entry) : Prop :=
  Rewrites r e.key e'.key ∧ Rewrites r e.value e'.value

/-- Some entries are done and define what is resolved, the others are pending. -/
structure Split (entries : List Entry) (r : Dict Text Text) (pending done left : List Entry) :
    Prop where
  perm : (done ++ left).Perm entries
  defines : Defines done r
  later : List.Forall₂ (Later r) left pending

/-- The split at the entry whose turn it is. -/
theorem Split.turn {done left before : List Entry}
    (h : Split entries r (before ++ e :: rest) done left) :
    ∃ left₁ d left₂, left = left₁ ++ d :: left₂ ∧ List.Forall₂ (Later r) left₁ before ∧
      Later r d e ∧ List.Forall₂ (Later r) left₂ rest := by
  have hbefore := List.forall₂_take_append _ _ _ h.later
  obtain ⟨d, left₂, hd, hrest, hleft⟩ :=
    List.forall₂_cons_right_iff.mp (List.forall₂_drop_append _ _ _ h.later)
  exact ⟨_, d, left₂, by rw [← hleft, List.take_append_drop], hbefore, hd, hrest⟩

theorem Later.grow {r' : Dict Text Text} {e' : Entry} (h : Later r e e') (hr : r.Sub r') :
    Later r' e e' :=
  ⟨h.1.grow hr, h.2.grow hr⟩

/-- A turn without a finding keeps the split. -/
theorem Turn.split {done left : List Entry} (hturn : Turn s e s')
    (h : Split entries s.resolved (s.still ++ e :: rest) done left) (hok : s'.findings = []) :
    ∃ done left, Split entries s'.resolved (s'.still ++ rest) done left := by
  obtain ⟨left₁, d, left₂, rfl, hbefore, ⟨hkey, hvalue⟩, hrest⟩ := h.turn
  cases hturn with
  | waits =>
    refine ⟨done, _, h.perm, h.defines, ?_⟩
    rw [List.append_assoc]
    exact List.rel_append hbefore (.cons ⟨hkey.pass, hvalue.pass⟩ hrest)
  | fails => exact absurd hok (by simp)
  | defines hrefs hname hfresh =>
    obtain ⟨hkrefs, hvrefs⟩ := List.append_eq_nil_iff.mp hrefs
    have hgrow : s.resolved.Sub (s.resolved.set (e.substitute s.resolved).key
      (e.substitute s.resolved).value) := Dict.sub_set hfresh
    refine ⟨d :: done, left₁ ++ left₂, ?_, ?_, ?_⟩
    · refine List.Perm.trans ?_ h.perm
      rw [List.cons_append, ← List.append_assoc, ← List.append_assoc]
      exact List.perm_middle.symm
    · exact .cons h.defines ⟨hkey.pass, hkrefs⟩ ⟨hvalue.pass, hvrefs⟩ hname hfresh
    · exact List.rel_append (hbefore.imp fun _ _ hl => hl.grow hgrow)
        (hrest.imp fun _ _ hl => hl.grow hgrow)

end Dsl41.Placeholders
