import Dsl41.Conditions.Tokens

/-!
# What is rendered is read: the round trip

A rendering is read as an operand or as an expression, in front of whatever may follow one, and the
tree that is read has the canonical form of the tree that was rendered.
-/

namespace Dsl41.Conditions

open Infra Infra.Json Oracle

section Reading

variable {s rest : List Char} {total : Nat}

/-! ### Operands and expressions -/

/-- The text is read as an operand that is no node, with the canonical form of the condition. -/
def ReadsOperand (c : Cond) (s : List Char) : Prop :=
  ∀ (total : Nat) (rest : List Char), EndsOperand rest → ∃ o d,
    (∃ enough, ∀ fuel ≥ enough, operand total fuel (s ++ rest) = some (o, rest)) ∧
      o.build = .ok d ∧ canonicalCond d = canonicalCond c ∧ d.isNode = false

/-- What follows an expression. -/
def EndsExpr (rest : List Char) : Prop := ∀ c ∈ rest.head?, c = ')'

/-- The text is read as an expression with the canonical form of the condition. -/
def ReadsExpr (c : Cond) (s : List Char) : Prop :=
  ∀ (total : Nat) (start rest : List Char), EndsExpr rest → ∃ first mid e d,
    (∃ enough, ∀ fuel ≥ enough, operand total fuel (s ++ rest) = some (first, mid) ∧
      binops total fuel start (.operand first) mid = some (e, rest)) ∧
        e.build = .ok d ∧ canonicalCond d = canonicalCond c

theorem EndsExpr.operand (h : EndsExpr rest) : EndsOperand rest := fun c hc => .inr (h c hc)

theorem binops_end (h : EndsExpr rest) (fuel : Nat) (start : List Char) (left : Expr) :
    binops total (fuel + 1) start left rest = some (left, rest) := by
  have hnone : oneOf (AND ++ OR) (skipWs rest) = none := by
    cases rest with
    | nil => rfl
    | cons c more =>
      obtain rfl := h c rfl
      rfl
  rw [binops, hnone]

theorem ReadsOperand.expr {c : Cond} (h : ReadsOperand c s) : ReadsExpr c s := by
  intro total start rest hrest
  obtain ⟨o, d, ⟨enough, hread⟩, hbuild, hcanon, -⟩ := h total rest hrest.operand
  refine ⟨o, rest, .operand o, d, ⟨enough + 1, fun fuel hfuel => ⟨hread fuel (by omega), ?_⟩⟩, ?_, hcanon⟩
  · obtain ⟨fuel, rfl⟩ := Nat.exists_eq_add_of_lt (Nat.lt_of_lt_of_le (Nat.succ_pos enough) hfuel)
    rw [Nat.zero_add]
    exact binops_end hrest fuel start _
  · rw [Expr.build_operand, hbuild]

/-- An atom is read as an operand. -/
theorem ReadsOperand.atom {c : Cond} {first : Char} {more : List Char} (hws : isWs first = false) (hne : first ≠ '(')
    (h : ∀ (total : Nat) (rest : List Char), EndsOperand rest → ∃ a, atom total (first :: (more ++ rest)) = some (a, rest) ∧
      ∀ span, ∃ d, a.build span = .ok d ∧ canonicalCond d = canonicalCond c ∧ d.isNode = false) :
    ReadsOperand c (first :: more) := by
  intro total rest hrest
  obtain ⟨a, hread, hbuild⟩ := h total rest hrest
  let span := spanOf total (first :: (more ++ rest)) rest
  obtain ⟨d, hd, hcanon, hnode⟩ := hbuild span
  refine ⟨.atom a span, d, ⟨1, fun fuel hfuel => ?_⟩, ?_, hcanon, hnode⟩
  · obtain ⟨fuel, rfl⟩ := Nat.exists_eq_add_of_lt (Nat.lt_of_lt_of_le Nat.one_pos hfuel)
    rw [Nat.zero_add]
    exact operand_atom hws hne hread fuel
  · rw [Operand.build]
    exact hd

/-- A group is read as an operand. -/
theorem ReadsExpr.group {c c' : Cond} (h : ReadsExpr c s) (hcanon : canonicalCond c' = canonicalCond c) :
    ReadsOperand c' ('(' :: (s ++ [')'])) := by
  intro total rest hrest
  have hclose : EndsExpr (')' :: rest) := by
    rintro _ ⟨⟩
    rfl
  obtain ⟨first, mid, e, d, ⟨enough, hread⟩, hbuild, hcanon'⟩ := h total (skipWs (s ++ ')' :: rest)) (')' :: rest) hclose
  let span := spanOf total ('(' :: (s ++ ')' :: rest)) rest
  refine ⟨.paren e span, .paren d span, ⟨enough + 1, fun fuel hfuel => ?_⟩, ?_, ?_, rfl⟩
  · obtain ⟨fuel, rfl⟩ := Nat.exists_eq_add_of_lt (Nat.lt_of_lt_of_le (Nat.succ_pos enough) hfuel)
    obtain ⟨hfirst, hinner⟩ := hread fuel (by omega)
    rw [Nat.zero_add, List.cons_append, List.append_assoc, List.singleton_append, operand, skipWs_cons rfl]
    simp only [Option.bind_eq_bind, Option.bind_some, hfirst, hinner, punct_cons (c := ')') rfl]
    rfl
  · rw [Operand.build_paren, hbuild]
    rfl
  · rw [canonicalCond, hcanon', hcanon]

/-! ### Nodes -/

def nodeOf (is_and : Bool) (operands : List Cond) (span : Option CondSpan) : Cond :=
  if is_and then .and operands span else .or operands span

theorem combine_eq (is_and : Bool) (left right : Cond) (span : Option CondSpan) :
    combine is_and left right span = nodeOf is_and (spread is_and left ++ [right]) span := by
  cases is_and <;> cases left <;> rfl

theorem spread_nodeOf (is_and : Bool) (operands : List Cond) (span : Option CondSpan) :
    spread is_and (nodeOf is_and operands span) = operands := by
  cases is_and <;> rfl

theorem canonicalCond_nodeOf (is_and : Bool) (operands : List Cond) (span : Option CondSpan) :
    canonicalCond (nodeOf is_and operands span) = gather is_and (flatten is_and operands) := by
  cases is_and <;> rfl

theorem flatten_eq (is_and : Bool) : ∀ l : List Cond,
    flatten is_and l = (l.map canonicalCond).flatMap (spread is_and) := by
  intro l
  induction l with
  | nil => rfl
  | cons c l ih => rw [flatten, ih, List.map_cons, List.flatMap_cons]

/-- The fold of a run of one operator. -/
theorem foldl_combine (is_and : Bool) : ∀ (steps : List (Cond × Option CondSpan)) (left : Cond), steps ≠ [] →
    ∃ span, steps.foldl (fun l step => combine is_and l step.1 step.2) left =
      nodeOf is_and (spread is_and left ++ steps.map Prod.fst) span
  | [step], left, _ => ⟨step.2, combine_eq is_and left step.1 step.2⟩
  | step :: next :: steps, left, _ => by
    obtain ⟨span, hfold⟩ := foldl_combine is_and (next :: steps) (combine is_and left step.1 step.2) (List.cons_ne_nil _ _)
    refine ⟨span, ?_⟩
    rw [List.foldl_cons, hfold, combine_eq, spread_nodeOf, List.append_assoc]
    rfl

theorem join_eq (sep : List Char) : ∀ (part : List Char) (parts : List (List Char)),
    join sep (part :: parts) = part ++ parts.flatMap (sep ++ ·)
  | part, [] => (List.append_nil part).symm
  | part, next :: parts => by
    rw [join_cons (List.cons_ne_nil _ _), join_eq sep next parts, List.flatMap_cons, List.append_assoc, List.append_assoc]

/-- The character of an operator. -/
def opChar (is_and : Bool) : Char := if is_and then '&' else '|'

/-- The operands of a run are read one after the other. -/
theorem binops_run (total : Nat) (is_and : Bool) (start : List Char) (hrest : EndsExpr rest) {operands : List Cond}
    {parts : List (List Char)} (h : List.Forall₂ ReadsOperand operands parts) :
    ∀ (left : Expr) (l : Cond), left.build = .ok l → ∃ (e : Expr) (steps : List (Cond × Option CondSpan)),
      (∃ enough, ∀ fuel ≥ enough, binops total fuel start left
        (parts.flatMap ([' ', opChar is_and, ' '] ++ ·) ++ rest) = some (e, rest)) ∧
      e.build = .ok (steps.foldl (fun l step => combine is_and l step.1 step.2) l) ∧
      steps.map (fun step => canonicalCond step.1) = operands.map canonicalCond := by
  induction h with
  | nil =>
    refine fun left l hbuild => ⟨left, [], ⟨1, fun fuel hfuel => ?_⟩, hbuild, rfl⟩
    obtain ⟨fuel, rfl⟩ := Nat.exists_eq_add_of_lt (Nat.lt_of_lt_of_le Nat.one_pos hfuel)
    rw [Nat.zero_add]
    exact binops_end hrest fuel start left
  | @cons c part operands parts hpart _ ih =>
    intro left l hbuild
    have hends : EndsOperand (parts.flatMap ([' ', opChar is_and, ' '] ++ ·) ++ rest) := by
      cases parts with
      | nil => exact hrest.operand
      | cons next parts =>
        rintro _ ⟨⟩
        exact .inl rfl
    obtain ⟨o, d, ⟨enough, hread⟩, hright, hcanon, -⟩ := hpart total _ hends
    generalize hafter : parts.flatMap ([' ', opChar is_and, ' '] ++ ·) ++ rest = after at *
    let span := spanOf total start after
    have hop : isAnd (String.ofList [opChar is_and]) = is_and := by
      rw [isAnd, lower, String.toList_ofList]
      cases is_and <;> decide
    have hcombined : (Expr.binop left (String.ofList [opChar is_and]) o span).build = .ok (combine is_and l d span) := by
      rw [Expr.build_binop, hbuild, hright, hop]
      rfl
    obtain ⟨e, steps, ⟨enough', hrun⟩, hbuilt, hsteps⟩ := ih _ _ hcombined
    refine ⟨e, (d, span) :: steps, ⟨max enough enough' + 2, fun fuel hfuel => ?_⟩, hbuilt, ?_⟩
    · obtain ⟨fuel, rfl⟩ := Nat.exists_eq_add_of_le' (le_trans (Nat.le_add_left 2 _) hfuel)
      have hword : oneOf (AND ++ OR) (skipWs ([' ', opChar is_and, ' '] ++ part ++ after)) =
          some ([opChar is_and], ' ' :: (part ++ after)) := by
        cases is_and <;> rfl
      have hspace : operand total (fuel + 1) (' ' :: (part ++ after)) = some (o, after) := by
        rw [← hread (fuel + 1) (by omega), operand, operand, skipWs_space]
      rw [List.flatMap_cons, List.append_assoc, hafter, binops, hword]
      simp only [Option.bind_eq_bind, Option.bind_some, hspace]
      exact hrun (fuel + 1) (by omega)
    · rw [List.map_cons, List.map_cons, hsteps, hcanon]

/-- The operands of a node, joined by its operator, are read as the node. -/
theorem ReadsExpr.node (is_and : Bool) {operands : List Cond} {parts : List (List Char)} {span : Option CondSpan}
    (hlen : 2 ≤ operands.length) (h : List.Forall₂ ReadsOperand operands parts) :
    ReadsExpr (nodeOf is_and operands span) (join [' ', opChar is_and, ' '] parts) := by
  intro total start rest hrest
  cases h with
  | nil => exact absurd hlen (by decide)
  | @cons c part operands parts hpart hparts =>
    have hne : operands ≠ [] := List.length_pos_iff.mp (Nat.le_of_succ_le_succ hlen)
    have hends : EndsOperand (parts.flatMap ([' ', opChar is_and, ' '] ++ ·) ++ rest) := by
      cases hparts with
      | nil => exact absurd rfl hne
      | cons =>
        rintro _ ⟨⟩
        exact .inl rfl
    obtain ⟨first, d, ⟨enough, hfirst⟩, hbuild, hcanon, hnode⟩ := hpart total _ hends
    obtain ⟨e, steps, ⟨enough', hrun⟩, hbuilt, hsteps⟩ :=
      binops_run total is_and start hrest hparts (.operand first) d (Expr.build_operand.trans hbuild)
    refine ⟨first, _, e, _, ⟨max enough enough', fun fuel hfuel => ⟨?_, hrun fuel (by omega)⟩⟩, hbuilt, ?_⟩
    · rw [join_eq, List.append_assoc]
      exact hfirst fuel (by omega)
    · have hsteps_ne : steps ≠ [] := by
        rintro rfl
        exact hne (List.map_eq_nil_iff.mp hsteps.symm)
      have halone : spread is_and d = [d] := by
        cases d with
        | and => cases hnode
        | or => cases hnode
        | _ => rfl
      obtain ⟨span', hfold⟩ := foldl_combine is_and steps d hsteps_ne
      rw [hfold, canonicalCond_nodeOf, canonicalCond_nodeOf, flatten_eq, flatten_eq, halone, List.singleton_append,
        List.map_cons, List.map_map, List.map_cons, hcanon]
      exact congrArg (fun l => gather is_and ((canonicalCond c :: l).flatMap (spread is_and))) hsteps

end Reading

/-! ## The round trip -/

mutual

theorem source_reads : ∀ (c : Cond) {s : List Char}, Lexical c → source c = .ok s →
    (c.isNode = false → ReadsOperand c s) ∧ ReadsExpr c s
  | .paren inner span, s, .paren h, hs => by
    obtain ⟨t, ht, hs⟩ := bind_eq_ok.mp hs
    cases hs
    have hread : ReadsOperand (.paren inner span) ('(' :: (t ++ [')'])) :=
      (source_reads inner h ht).2.group (by rw [canonicalCond])
    exact ⟨fun _ => hread, hread.expr⟩
  | .and operands span, s, .and hlen h, hs => by
    obtain ⟨parts, hparts, hs⟩ := bind_eq_ok.mp hs
    cases hs
    exact ⟨nofun, ReadsExpr.node true hlen (sources_read operands h hparts)⟩
  | .or operands span, s, .or hlen h, hs => by
    obtain ⟨parts, hparts, hs⟩ := bind_eq_ok.mp hs
    cases hs
    exact ⟨nofun, ReadsExpr.node false hlen (sources_read operands h hparts)⟩
  | .status job st lookback span, s, .status hjob hlookback, hs => by
    cases hs
    have hletter : isWs (statusLetter st) = false ∧ statusLetter st ≠ '(' := by cases st <;> decide
    have hread : ReadsOperand (.status job st lookback span) (statusLetter st :: headSource job lookback) := by
      refine .atom hletter.1 hletter.2 fun total rest hrest => ?_
      obtain ⟨a, hatom, hbuild⟩ := atom_status total rest st hjob hlookback
      exact ⟨a, hatom, fun span' => ⟨_, hbuild span', by rw [canonicalCond, canonicalCond], rfl⟩⟩
    exact ⟨fun _ => hread, hread.expr⟩
  | .exitcode job op _ lookback span, s, .exitcode value hjob hlookback, hs => by
    cases hs
    have hread : ReadsOperand (.exitcode job op value lookback span)
        ('e' :: (headSource job lookback ++ ' ' :: ((CmpOp.text op).toList ++ ' ' :: intText value))) := by
      refine .atom rfl (by decide) fun total rest hrest => ?_
      obtain ⟨a, hatom, hbuild⟩ := atom_exitcode total op value hjob hlookback hrest
      simp only [List.append_assoc, List.cons_append]
      exact ⟨a, hatom, fun span' => ⟨_, hbuild span', by rw [canonicalCond, canonicalCond], rfl⟩⟩
    exact ⟨fun _ => hread, hread.expr⟩
  | .global name op value span, s, .global hne hname, hs => by
    obtain ⟨text, htext, hs⟩ := bind_eq_ok.mp hs
    cases hs
    have hread : ReadsOperand (.global name op value span)
        ('v' :: '(' :: (name.toList ++ ')' :: ' ' :: ((CmpOp.text op).toList ++ ' ' :: text))) := by
      refine .atom rfl (by decide) fun total rest hrest => ?_
      obtain ⟨a, hatom, hbuild⟩ := atom_global total op hne hname htext hrest
      simp only [List.append_assoc, List.cons_append]
      exact ⟨a, hatom, fun span' => ⟨_, hbuild span', by rw [canonicalCond, canonicalCond], rfl⟩⟩
    exact ⟨fun _ => hread, hread.expr⟩

theorem sources_read : ∀ (operands : List Cond) {parts : List (List Char)}, (∀ c ∈ operands, Lexical c) →
    sources operands = .ok parts → List.Forall₂ ReadsOperand operands parts
  | [], _, _, hs => by
    cases hs
    exact .nil
  | c :: operands, parts, h, hs => by
    obtain ⟨s, hs₁, hs⟩ := bind_eq_ok.mp hs
    obtain ⟨rest, hs₂, hs⟩ := bind_eq_ok.mp hs
    cases hs
    obtain ⟨hoperand, hexpr⟩ := source_reads c (h c List.mem_cons_self) hs₁
    refine .cons ?_ (sources_read operands (fun d hd => h d (List.mem_cons_of_mem c hd)) hs₂)
    unfold group
    split_ifs with hnode
    · exact hexpr.group rfl
    · exact hoperand (Bool.eq_false_iff.mpr hnode)

end

end Dsl41.Conditions
