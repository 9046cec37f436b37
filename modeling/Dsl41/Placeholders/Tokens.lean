import Dsl41.Infra.Dict
import Dsl41.Jil.Syntax

/-!
# Tokens

A text is cut at its `~{$NAME}~` tokens from the left, without overlap, as the regular expression
does. One pass replaces the tokens whose names are bound.
-/

namespace Dsl41.Placeholders

open Dsl41.Infra
open Dsl41.Jil (isKeyStart isKeyChar)

abbrev Text := List Char

/-- `_NAME_RE` matched against a whole text. -/
def isName : Text → Bool
  | [] => false
  | c :: cs => isKeyStart c && cs.all isKeyChar

/-- The token of a name. -/
def token (name : Text) : Text := ['~', '{', '$'] ++ name ++ ['}', '~']

/-- `PLACEHOLDER_RE` matched at the head of a text. -/
def tokenAt (t : Text) : Option Text :=
  let name := (t.drop 3).takeWhile isKeyChar
  if isName name && (token name).isPrefixOf t then some name else none

inductive Piece where
  | char (c : Char)
  | ref (name : Text)
deriving DecidableEq

/-- A text cut at its tokens. `skip` counts what is left of the token in hand. -/
def piecesFrom (skip : Nat) : Text → List Piece
  | [] => []
  | c :: rest =>
    match skip with
    | skip + 1 => piecesFrom skip rest
    | 0 =>
      match tokenAt (c :: rest) with
      | some name => .ref name :: piecesFrom (name.length + 4) rest
      | none => .char c :: piecesFrom 0 rest

def pieces (t : Text) : List Piece := piecesFrom 0 t

/-- The name a piece refers to. -/
def Piece.ref? : Piece → Option Text
  | char _ => none
  | ref name => some name

/-- `PLACEHOLDER_RE.findall`; a text has a token when this is not empty. -/
def refs (t : Text) : List Text := (pieces t).filterMap Piece.ref?

/-- A piece with its name replaced. -/
def Piece.fill (bindings : Dict Text Text) : Piece → Text
  | char c => [c]
  | ref name => (bindings.get? name).getD (token name)

/-- `_substitute_known`. -/
def substituteKnown (t : Text) (bindings : Dict Text Text) : Text :=
  (pieces t).flatMap (Piece.fill bindings)

/-! ## Matches -/

variable {t u name before after : Text} {skip : Nat} {bindings r r' : Dict Text Text}

theorem isKeyChar_of_isName (h : isName name = true) : ∀ c ∈ name, isKeyChar c = true := by
  cases name with
  | nil => cases h
  | cons c cs =>
    rw [isName, Bool.and_eq_true, List.all_eq_true] at h
    intro x hx
    obtain rfl | hx := List.mem_cons.mp hx
    · rw [isKeyChar, h.1, Bool.true_or]
    · exact h.2 x hx

theorem tokenAt_eq_some : tokenAt t = some name ↔ isName name = true ∧ token name <+: t := by
  simp only [tokenAt]
  constructor
  · intro h
    split at h
    · next hp =>
      cases h
      rw [Bool.and_eq_true, List.isPrefixOf_iff_prefix] at hp
      exact hp
    · cases h
  · rintro ⟨hname, rest, rfl⟩
    have htake : ((token name ++ rest).drop 3).takeWhile isKeyChar = name := by
      change (name ++ ['}', '~'] ++ rest).takeWhile isKeyChar = name
      rw [List.append_assoc, List.takeWhile_append_of_pos (isKeyChar_of_isName hname)]
      simp [show isKeyChar '}' = false by decide]
    rw [htake, if_pos]
    rw [Bool.and_eq_true]
    exact ⟨hname, List.isPrefixOf_iff_prefix.mpr ⟨rest, rfl⟩⟩

/-- A text with a token in it has a match. -/
theorem refs_ne_nil (before after : Text) (hname : isName name = true) (ht : t = before ++ token name ++ after) :
    refs t ≠ [] := by
  subst ht
  rw [refs, pieces]
  induction before with
  | nil =>
    have hat : tokenAt (token name ++ after) = some name :=
      tokenAt_eq_some.mpr ⟨hname, after, rfl⟩
    obtain ⟨rest, hrest⟩ : ∃ rest, token name ++ after = '~' :: rest := ⟨_, rfl⟩
    rw [hrest] at hat
    rw [List.nil_append, hrest, piecesFrom, hat]
    exact List.cons_ne_nil _ _
  | cons c before ih =>
    rw [List.cons_append, List.cons_append, piecesFrom]
    cases tokenAt (c :: (before ++ token name ++ after)) with
    | some n => simp [Piece.ref?]
    | none => simpa [Piece.ref?] using ih

/-! ## One pass -/

theorem isName_of_mem (h : name ∈ refs t) : isName name = true := by
  obtain ⟨p, hp, hname⟩ := List.mem_filterMap.mp h
  cases p with
  | char c => cases hname
  | ref n =>
    cases hname
    have hpieces : ∀ {l : Text} {skip : Nat}, Piece.ref name ∈ piecesFrom skip l →
        isName name = true := by
      intro l
      induction l with
      | nil => exact fun h => nomatch h
      | cons c rest ih =>
        intro skip h
        cases skip with
        | succ skip => exact ih h
        | zero =>
          rw [piecesFrom] at h
          split at h
          · next n hat =>
            obtain h | h := List.mem_cons.mp h
            · cases h
              exact (tokenAt_eq_some.mp hat).1
            · exact ih h
          · obtain h | h := List.mem_cons.mp h
            · cases h
            · exact ih h
    exact hpieces hp

theorem mem_refs : name ∈ refs t ↔ Piece.ref name ∈ pieces t := by
  rw [refs, List.mem_filterMap]
  constructor
  · rintro ⟨p, hp, hname⟩
    cases p with
    | char c => cases hname
    | ref n =>
      cases hname
      exact hp
  · exact fun h => ⟨_, h, rfl⟩

/-- The pieces with no name bound are the text. -/
theorem piecesFrom_text (l : Text) (skip : Nat) :
    (piecesFrom skip l).flatMap (Piece.fill ∅) = l.drop skip := by
  induction l generalizing skip with
  | nil => simp [piecesFrom]
  | cons c rest ih =>
    cases skip with
    | succ skip => exact ih skip
    | zero =>
      rw [piecesFrom]
      split
      · next name hat =>
        obtain ⟨-, after, hafter⟩ := tokenAt_eq_some.mp hat
        have hrest : rest.drop (name.length + 4) = after := by
          have h := congrArg (List.drop (name.length + 5)) hafter
          rw [List.drop_left' (by simp [token])] at h
          exact h.symm
        rw [List.flatMap_cons, ih, hrest]
        exact hafter
      · rw [List.flatMap_cons, ih]
        rfl

theorem substituteKnown_empty : substituteKnown t ∅ = t := piecesFrom_text t 0

/-- Names that are bound alike are replaced alike. -/
theorem substituteKnown_congr (r' : Dict Text Text) (h : ∀ name ∈ refs t, r.get? name = r'.get? name) :
    substituteKnown t r = substituteKnown t r' := by
  refine List.flatMap_congr fun p hp => ?_
  cases p with
  | char c => rfl
  | ref name => rw [Piece.fill, Piece.fill, h name (mem_refs.mpr hp)]

/-- A name that is not bound leaves a token. -/
theorem refs_substituteKnown (hname : name ∈ refs t) (hr : r.get? name = none) :
    refs (substituteKnown t r) ≠ [] := by
  obtain ⟨before, after, hpieces⟩ := List.append_of_mem (mem_refs.mp hname)
  refine refs_ne_nil (before.flatMap (Piece.fill r)) (after.flatMap (Piece.fill r))
    (isName_of_mem hname) ?_
  rw [substituteKnown, hpieces]
  simp [Piece.fill, hr]

end Dsl41.Placeholders
