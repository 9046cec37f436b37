import Mathlib.Data.String.Basic
import Dsl41.Conditions.Reading
import Dsl41.Infra.Json.Dumps

/-!
# Canonical conditions

`canonical_cond`: groups are erased, runs of one operator flattened, and the operands of a run
sorted by their dump with each kept once. What it returns is `Canonical`, on which it changes
nothing, and an operand is dropped only for one with the same dump, which is the same condition.
-/

namespace Dsl41.Conditions

open Infra Infra.Json Oracle

/-! ## The dump of a condition -/

def CmpOp.text : CmpOp → String
  | .eq => "="
  | .ne => "!="
  | .lt => "<"
  | .gt => ">"
  | .le => "<="
  | .ge => ">="

def AtomStatus.text : AtomStatus → String
  | .success => "SUCCESS"
  | .failure => "FAILURE"
  | .done => "DONE"
  | .terminated => "TERMINATED"
  | .notRunning => "NOTRUNNING"

def dumpText : Option String → Datum
  | none => .null
  | some s => .str s

def dumpJob (job : JobRef) : Datum := .object [("name", .str job.name), ("instance", dumpText job.instance_)]

def lookbackKind : Oracle.Lookback → String
  | .window _ => "window"
  | .zero => "zero"
  | .indefinite => "indefinite"

def dumpMinutes : Oracle.Lookback → Datum
  | .window minutes => .int minutes
  | _ => .null

def dumpLookback : Option Lookback → Datum
  | none => .null
  | some l => .object [("kind", .str (lookbackKind l.kind)), ("minutes", dumpMinutes l.kind), ("raw", .str l.raw)]

def dumpSpan : Option CondSpan → Datum
  | none => .null
  | some span => .object [("start", .int span.start), ("end", .int span.stop)]

def Cond.span : Cond → Option CondSpan
  | .status _ _ _ span => span
  | .exitcode _ _ _ _ span => span
  | .global _ _ _ span => span
  | .and _ span => span
  | .or _ span => span
  | .paren _ span => span

mutual

/-- `model_dump(exclude=("span",))`: the fields of the node itself lose their span, those below keep it. -/
def Cond.fields : Cond → List (String × Datum)
  | .status job status lookback _ =>
    [("kind", .str "status"), ("job", dumpJob job), ("status", .str (AtomStatus.text status)),
      ("lookback", dumpLookback lookback)]
  | .exitcode job op value lookback _ =>
    [("kind", .str "exitcode"), ("job", dumpJob job), ("op", .str (CmpOp.text op)), ("value", .int value),
      ("lookback", dumpLookback lookback)]
  | .global name op value _ =>
    [("kind", .str "global"), ("name", .str name), ("op", .str (CmpOp.text op)), ("value", .str value)]
  | .and operands _ => [("kind", .str "and"), ("operands", .list (dumpAll operands))]
  | .or operands _ => [("kind", .str "or"), ("operands", .list (dumpAll operands))]
  | .paren inner _ => [("kind", .str "paren"), ("inner", .object (("span", dumpSpan inner.span) :: inner.fields))]

def dumpAll : List Cond → List Datum
  | [] => []
  | c :: rest => .object (("span", dumpSpan c.span) :: c.fields) :: dumpAll rest

end

/-- `_structural_key`. -/
def structuralKey (c : Cond) : String := String.ofList (dumps (sortKeys (.object c.fields)))

/-! ## The canonical form -/

/-- `_canon_lookback`. -/
def canonLookback (lookback : Option Lookback) : Option Lookback := lookback.map fun l => ⟨l.kind, ""⟩

/-- The operands of a node of this operator, and any other node alone. -/
def spread (is_and : Bool) : Cond → List Cond
  | .and operands span => if is_and then operands else [.and operands span]
  | .or operands span => if is_and then [.or operands span] else operands
  | c => [c]

/-- The operands whose key no operand before them has. -/
def dedup : List String → List Cond → List Cond
  | _, [] => []
  | seen, operand :: rest =>
    if structuralKey operand ∈ seen then dedup seen rest
    else operand :: dedup (structuralKey operand :: seen) rest

def node (is_and : Bool) (operands : List Cond) : Cond := if is_and then .and operands none else .or operands none

/-- The node of an operator over its flattened operands; one operand stands for itself. -/
def gather (is_and : Bool) (flat : List Cond) : Cond :=
  match dedup [] (flat.insertionSort fun a b => structuralKey a ≤ structuralKey b) with
  | [operand] => operand
  | deduped => node is_and deduped

mutual

/-- `canonical_cond`. -/
def canonicalCond : Cond → Cond
  | .paren inner _ => canonicalCond inner
  | .and operands _ => gather true (flatten true operands)
  | .or operands _ => gather false (flatten false operands)
  | .status job status lookback _ => .status job status (canonLookback lookback) none
  | .exitcode job op value lookback _ => .exitcode job op value (canonLookback lookback) none
  | .global name op value _ => .global name op value none

def flatten (is_and : Bool) : List Cond → List Cond
  | [] => []
  | operand :: rest => spread is_and (canonicalCond operand) ++ flatten is_and rest

end

variable {truth : Oracle.Atom → Bool} {is_and : Bool} {c d : Cond} {l flat : List Cond}

/-! ## The key keeps the condition -/

theorem dumpText_inj {a b : Option String} (h : sortKeys (dumpText a) = sortKeys (dumpText b)) : a = b := by
  cases a <;> cases b <;> simp_all [dumpText, sortKeys]

theorem dumpJob_inj {a b : JobRef} (h : sortKeys (dumpJob a) = sortKeys (dumpJob b)) : a = b := by
  have hfield := getIn_of_sortKeys (by simp) (by simp) h
  have hname := hfield "name"
  have hinstance := hfield "instance"
  simp [Dict.getIn, sortKeys] at hname hinstance
  cases a
  cases b
  exact congrArg₂ JobRef.mk hname (dumpText_inj hinstance)

theorem dumpLookback_inj {a b : Option Lookback} (h : sortKeys (dumpLookback a) = sortKeys (dumpLookback b)) : a = b := by
  match a, b with
  | none, none => rfl
  | none, some l => exact nomatch h
  | some l, none => exact nomatch h
  | some ⟨kind, raw⟩, some ⟨kind', raw'⟩ =>
    have hfield := getIn_of_sortKeys (by simp) (by simp) h
    have hkind := hfield "kind"
    have hminutes := hfield "minutes"
    have hraw := hfield "raw"
    simp only [Dict.getIn, sortKeys, Option.map_some, if_true, Option.some.injEq, Datum.str.injEq] at hkind
    simp [Dict.getIn, sortKeys] at hminutes hraw
    have hsame : kind = kind' := by
      cases kind <;> cases kind' <;> simp_all [lookbackKind, dumpMinutes, sortKeys]
    rw [hsame, hraw]

theorem dumpSpan_inj {a b : Option CondSpan} (h : sortKeys (dumpSpan a) = sortKeys (dumpSpan b)) : a = b := by
  match a, b with
  | none, none => rfl
  | none, some span => exact nomatch h
  | some span, none => exact nomatch h
  | some ⟨start, stop⟩, some ⟨start', stop'⟩ =>
    have hfield := getIn_of_sortKeys (by simp) (by simp) h
    have hstart := hfield "start"
    have hstop := hfield "end"
    simp [Dict.getIn, sortKeys] at hstart hstop
    have hsame : start = start' ∧ stop = stop' := by omega
    rw [hsame.1, hsame.2]

theorem CmpOp.text_injective : Function.Injective CmpOp.text := by
  intro a b h
  cases a <;> cases b <;> first | rfl | exact absurd h (by decide)

theorem AtomStatus.text_injective : Function.Injective AtomStatus.text := by
  intro a b h
  cases a <;> cases b <;> first | rfl | exact absurd h (by decide)

/-- The node without its span. -/
def Cond.bare : Cond → Cond
  | .status job st lookback _ => .status job st lookback none
  | .exitcode job op value lookback _ => .exitcode job op value lookback none
  | .global name op value _ => .global name op value none
  | .and operands _ => .and operands none
  | .or operands _ => .or operands none
  | .paren inner _ => .paren inner none

theorem fields_nodup (c : Cond) : (c.fields.map Prod.fst).Nodup := by
  cases c <;> simp [Cond.fields]

theorem spanned_nodup (c : Cond) : ((("span", dumpSpan c.span) :: c.fields).map Prod.fst).Nodup := by
  cases c <;> simp [Cond.fields]

theorem eq_of_bare (h : c.bare = d.bare) (hspan : c.span = d.span) : c = d := by
  cases c <;> cases d <;> simp_all [Cond.bare, Cond.span]

/-- Both conditions have the same sorted value at every key but the span. -/
def SameFields (c d : Cond) : Prop :=
  ∀ key, key ≠ "span" → (Dict.getIn key c.fields).map sortKeys = (Dict.getIn key d.fields).map sortKeys

theorem sameFields_of_spanned (h : sortKeys (.object (("span", dumpSpan c.span) :: c.fields)) =
    sortKeys (.object (("span", dumpSpan d.span) :: d.fields))) : SameFields c d ∧ c.span = d.span := by
  have hfield := getIn_of_sortKeys (spanned_nodup c) (spanned_nodup d) h
  refine ⟨fun key hne => ?_, dumpSpan_inj ?_⟩
  · have hkey := hfield key
    rwa [Dict.getIn, Dict.getIn, if_neg hne.symm, if_neg hne.symm] at hkey
  · exact Option.some.inj (hfield "span")

mutual

theorem bare_of_fields : ∀ (c d : Cond), SameFields c d → c.bare = d.bare
  | .status job status lookback _, d, h => by
    have hkind := h "kind" (by decide)
    cases d with
    | status job' status' lookback' _ =>
      have hjob := h "job" (by decide)
      have hstatus := h "status" (by decide)
      have hlookback := h "lookback" (by decide)
      simp [Cond.fields, Dict.getIn, sortKeys] at hjob hstatus hlookback
      rw [dumpJob_inj hjob, AtomStatus.text_injective hstatus, dumpLookback_inj hlookback]
      rfl
    | _ => simp [Cond.fields, Dict.getIn, sortKeys] at hkind
  | .exitcode job op value lookback _, d, h => by
    have hkind := h "kind" (by decide)
    cases d with
    | exitcode job' op' value' lookback' _ =>
      have hjob := h "job" (by decide)
      have hop := h "op" (by decide)
      have hvalue := h "value" (by decide)
      have hlookback := h "lookback" (by decide)
      simp [Cond.fields, Dict.getIn, sortKeys] at hjob hop hvalue hlookback
      rw [dumpJob_inj hjob, CmpOp.text_injective hop, hvalue, dumpLookback_inj hlookback]
      rfl
    | _ => simp [Cond.fields, Dict.getIn, sortKeys] at hkind
  | .global name op value _, d, h => by
    have hkind := h "kind" (by decide)
    cases d with
    | global name' op' value' _ =>
      have hname := h "name" (by decide)
      have hop := h "op" (by decide)
      have hvalue := h "value" (by decide)
      simp [Cond.fields, Dict.getIn, sortKeys] at hname hop hvalue
      rw [hname, CmpOp.text_injective hop, hvalue]
      rfl
    | _ => simp [Cond.fields, Dict.getIn, sortKeys] at hkind
  | .and operands _, d, h => by
    have hkind := h "kind" (by decide)
    cases d with
    | and operands' _ =>
      have hoperands := h "operands" (by decide)
      simp [Cond.fields, Dict.getIn, sortKeys] at hoperands
      rw [Cond.bare, operands_of_dump operands operands' hoperands]
      rfl
    | _ => simp [Cond.fields, Dict.getIn, sortKeys] at hkind
  | .or operands _, d, h => by
    have hkind := h "kind" (by decide)
    cases d with
    | or operands' _ =>
      have hoperands := h "operands" (by decide)
      simp [Cond.fields, Dict.getIn, sortKeys] at hoperands
      rw [Cond.bare, operands_of_dump operands operands' hoperands]
      rfl
    | _ => simp [Cond.fields, Dict.getIn, sortKeys] at hkind
  | .paren inner _, d, h => by
    have hkind := h "kind" (by decide)
    cases d with
    | paren inner' _ =>
      have hinner := Option.some.inj (h "inner" (by decide))
      obtain ⟨hsame, hspan⟩ := sameFields_of_spanned hinner
      rw [Cond.bare, eq_of_bare (bare_of_fields inner inner' hsame) hspan]
      rfl
    | _ => simp [Cond.fields, Dict.getIn, sortKeys] at hkind

theorem operands_of_dump : ∀ l m : List Cond, sortKeysItems (dumpAll l) = sortKeysItems (dumpAll m) → l = m
  | [], [], _ => rfl
  | [], _ :: _, h => nomatch h
  | _ :: _, [], h => nomatch h
  | c :: l, d :: m, h => by
    simp only [dumpAll, sortKeysItems, List.cons.injEq] at h
    obtain ⟨hsame, hspan⟩ := sameFields_of_spanned h.1
    rw [eq_of_bare (bare_of_fields c d hsame) hspan, operands_of_dump l m h.2]

end

/-- Conditions with the same key differ in their own span at most. -/
theorem bare_of_key (h : structuralKey c = structuralKey d) : c.bare = d.bare :=
  bare_of_fields c d fun key _ =>
    getIn_of_sortKeys (fields_nodup c) (fields_nodup d) (dumps_injective (String.ofList_injective h)) key

/-! ## What a canonical condition is -/

/-- An atom without span and token, or other than one operand, each canonical, none of the node's
own operator, in the strict order of their keys. -/
inductive Canonical : Cond → Prop
  | status (job : JobRef) (st : AtomStatus) (lookback : Option Lookback) :
      Canonical (.status job st (canonLookback lookback) none)
  | exitcode (job : JobRef) (op : CmpOp) (value : Int) (lookback : Option Lookback) :
      Canonical (.exitcode job op value (canonLookback lookback) none)
  | global (name : String) (op : CmpOp) (value : String) : Canonical (.global name op value none)
  | node (is_and : Bool) (operands : List Cond) : (∀ c ∈ operands, Canonical c) →
      (∀ c ∈ operands, spread is_and c = [c]) → operands.Pairwise (fun a b => structuralKey a < structuralKey b) →
      operands.length ≠ 1 → Canonical (node is_and operands)

theorem Canonical.bare (h : Canonical c) : c.bare = c := by
  cases h with
  | node is_and => cases is_and <;> rfl
  | _ => rfl

/-- Canonical conditions with the same key are the same. -/
theorem Canonical.eq_of_key (hc : Canonical c) (hd : Canonical d) (h : structuralKey c = structuralKey d) : c = d := by
  rw [← hc.bare, ← hd.bare, bare_of_key h]

theorem spread_node (operands : List Cond) : spread is_and (node is_and operands) = operands := by
  cases is_and <;> rfl

theorem spread_node_ne {other : Bool} (operands : List Cond) (h : is_and ≠ other) :
    spread is_and (node other operands) = [node other operands] := by
  cases is_and <;> cases other <;> first | rfl | exact absurd rfl h

theorem Canonical.of_spread (h : Canonical c) : ∀ d ∈ spread is_and c, Canonical d ∧ spread is_and d = [d] := by
  have halone : ∀ {c : Cond}, Canonical c → spread is_and c = [c] →
      ∀ d ∈ spread is_and c, Canonical d ∧ spread is_and d = [d] := by
    intro c hc heq d hd
    rw [heq] at hd
    rw [List.mem_singleton.mp hd]
    exact ⟨hc, heq⟩
  cases h with
  | status job st lookback => exact halone (.status job st lookback) rfl
  | exitcode job op value lookback => exact halone (.exitcode job op value lookback) rfl
  | global name op value => exact halone (.global name op value) rfl
  | node other operands hall hflat hsorted hlen =>
    by_cases heq : is_and = other
    · subst heq
      rw [spread_node]
      exact fun d hd => ⟨hall d hd, hflat d hd⟩
    · exact halone (.node other operands hall hflat hsorted hlen) (spread_node_ne operands heq)

/-! ## Sorting and dedup -/

theorem dedup_sublist : ∀ (seen : List String) {l : List Cond}, (dedup seen l).Sublist l
  | _, [] => .slnil
  | seen, operand :: rest => by
    rw [dedup]
    split
    · exact (dedup_sublist _).cons _
    · exact (dedup_sublist _).cons_cons _

/-- No key of what is kept is in `seen`, and none comes twice. -/
theorem dedup_keys : ∀ (seen : List String) {l : List Cond}, (∀ c ∈ dedup seen l, structuralKey c ∉ seen) ∧
    (dedup seen l).Pairwise fun a b => structuralKey a ≠ structuralKey b
  | _, [] => ⟨nofun, .nil⟩
  | seen, operand :: rest => by
    rw [dedup]
    split
    · exact dedup_keys _
    · next hnew =>
      obtain ⟨hseen, hpair⟩ := @dedup_keys (structuralKey operand :: seen) rest
      refine ⟨fun c hc => ?_, List.pairwise_cons.mpr ⟨fun c hc heq => ?_, hpair⟩⟩
      · rcases List.mem_cons.mp hc with rfl | hc
        · exact hnew
        · exact fun hmem => hseen c hc (List.mem_cons_of_mem _ hmem)
      · exact hseen c hc (heq ▸ List.mem_cons_self)

/-- What is dropped has the key of something seen or kept. -/
theorem dedup_covers : ∀ (seen : List String) {l : List Cond}, ∀ c ∈ l,
    structuralKey c ∈ seen ∨ ∃ d ∈ dedup seen l, structuralKey d = structuralKey c
  | seen, operand :: rest, c, hc => by
    rw [dedup]
    split
    · next hold =>
      rcases List.mem_cons.mp hc with rfl | hc
      · exact .inl hold
      · exact dedup_covers _ c hc
    · rcases List.mem_cons.mp hc with rfl | hc
      · exact .inr ⟨c, List.mem_cons_self, rfl⟩
      · rcases dedup_covers (structuralKey operand :: seen) c hc with hmem | ⟨d, hd, heq⟩
        · rcases List.mem_cons.mp hmem with heq | hmem
          · exact .inr ⟨operand, List.mem_cons_self, heq.symm⟩
          · exact .inl hmem
        · exact .inr ⟨d, List.mem_cons_of_mem _ hd, heq⟩

/-- Nothing is dropped where every key comes once. -/
theorem dedup_eq : ∀ {seen : List String} {l : List Cond}, (∀ c ∈ l, structuralKey c ∉ seen) →
    l.Pairwise (fun a b => structuralKey a ≠ structuralKey b) → dedup seen l = l
  | _, [], _, _ => rfl
  | seen, operand :: rest, hseen, hpair => by
    obtain ⟨hne, hrest⟩ := List.pairwise_cons.mp hpair
    rw [dedup, if_neg (hseen operand List.mem_cons_self), dedup_eq (fun c hc hmem => ?_) hrest]
    rcases List.mem_cons.mp hmem with heq | hmem
    · exact hne c hc heq.symm
    · exact hseen c (List.mem_cons_of_mem _ hc) hmem

/-- The operands a node is gathered from, sorted and each once. -/
def arranged (flat : List Cond) : List Cond :=
  dedup [] (flat.insertionSort fun a b => structuralKey a ≤ structuralKey b)

theorem mem_of_arranged (h : c ∈ arranged flat) : c ∈ flat :=
  (List.mem_insertionSort _).mp ((dedup_sublist _).subset h)

theorem arranged_sorted : (arranged flat).Pairwise fun a b => structuralKey a < structuralKey b := by
  have htrans : IsTrans Cond fun a b => structuralKey a ≤ structuralKey b := ⟨fun _ _ _ => le_trans⟩
  have htotal : Std.Total fun a b : Cond => structuralKey a ≤ structuralKey b := ⟨fun _ _ => le_total _ _⟩
  have hle := (List.pairwise_insertionSort (fun a b : Cond => structuralKey a ≤ structuralKey b) flat).sublist
    (dedup_sublist [])
  exact (hle.and (dedup_keys _).2).imp fun h => lt_of_le_of_ne h.1 h.2

theorem mem_arranged (hflat : ∀ c ∈ flat, Canonical c) : c ∈ arranged flat ↔ c ∈ flat := by
  refine ⟨mem_of_arranged, fun hc => ?_⟩
  have hsorted : c ∈ flat.insertionSort fun a b => structuralKey a ≤ structuralKey b := (List.mem_insertionSort _).mpr hc
  rcases dedup_covers [] c hsorted with hmem | ⟨d, hd, heq⟩
  · exact absurd hmem List.not_mem_nil
  · rwa [← (hflat d (mem_of_arranged hd)).eq_of_key (hflat c hc) heq]

theorem arranged_eq (h : flat.Pairwise fun a b => structuralKey a < structuralKey b) : arranged flat = flat := by
  have hle : flat.Pairwise fun a b => structuralKey a ≤ structuralKey b := h.imp fun hlt => le_of_lt hlt
  rw [arranged, hle.insertionSort_eq]
  exact dedup_eq (fun _ _ => List.not_mem_nil) (h.imp fun hlt => ne_of_lt hlt)

theorem gather_cases (is_and : Bool) (flat : List Cond) : (∃ c, arranged flat = [c] ∧ gather is_and flat = c) ∨
    ((arranged flat).length ≠ 1 ∧ gather is_and flat = node is_and (arranged flat)) := by
  unfold gather
  rw [← arranged]
  match arranged flat with
  | [] => exact .inr ⟨by simp, rfl⟩
  | [c] => exact .inl ⟨c, rfl, rfl⟩
  | _ :: _ :: _ => exact .inr ⟨by simp, rfl⟩

/-! ## The form is canonical, and kept -/

theorem gather_canonical (h : ∀ c ∈ flat, Canonical c ∧ spread is_and c = [c]) : Canonical (gather is_and flat) := by
  rcases gather_cases is_and flat with ⟨c, heq, hgather⟩ | ⟨hlen, hgather⟩
  · rw [hgather]
    exact (h c (mem_of_arranged (by rw [heq]; exact List.mem_singleton_self c))).1
  · rw [hgather]
    exact .node is_and _ (fun c hc => (h c (mem_of_arranged hc)).1) (fun c hc => (h c (mem_of_arranged hc)).2)
      arranged_sorted hlen

mutual

theorem canonicalCond_canonical : ∀ c : Cond, Canonical (canonicalCond c)
  | .status job st lookback _ => .status job st lookback
  | .exitcode job op value lookback _ => .exitcode job op value lookback
  | .global name op value _ => .global name op value
  | .and operands _ => by
    rw [canonicalCond]
    exact gather_canonical (flatten_canonical operands)
  | .or operands _ => by
    rw [canonicalCond]
    exact gather_canonical (flatten_canonical operands)
  | .paren inner _ => by
    rw [canonicalCond]
    exact canonicalCond_canonical inner

theorem flatten_canonical {is_and : Bool} : ∀ l : List Cond, ∀ c ∈ flatten is_and l,
    Canonical c ∧ spread is_and c = [c]
  | [], _, hc => nomatch hc
  | operand :: rest, c, hc => by
    rw [flatten] at hc
    rcases List.mem_append.mp hc with hc | hc
    · exact (canonicalCond_canonical operand).of_spread c hc
    · exact flatten_canonical rest c hc

end

theorem canonicalCond_node (operands : List Cond) :
    canonicalCond (node is_and operands) = gather is_and (flatten is_and operands) := by
  cases is_and with
  | true => rw [node, if_pos rfl, canonicalCond]
  | false => rw [node, if_neg Bool.false_ne_true, canonicalCond]

/-- A canonical condition is its own canonical form. -/
theorem Canonical.canonicalCond_eq (h : Canonical c) : canonicalCond c = c := by
  have hlookback : ∀ l, canonLookback (canonLookback l) = canonLookback l := by
    intro l
    cases l <;> rfl
  induction h with
  | status job st lookback => rw [canonicalCond, hlookback]
  | exitcode job op value lookback => rw [canonicalCond, hlookback]
  | global => rw [canonicalCond]
  | node is_and operands _ hflat hsorted hlen ih =>
    have hflatten : ∀ l : List Cond, (∀ c ∈ l, canonicalCond c = c) → (∀ c ∈ l, spread is_and c = [c]) →
        flatten is_and l = l := by
      intro l
      induction l with
      | nil => exact fun _ _ => by rw [flatten]
      | cons c l ihl =>
        intro hfix halone
        rw [flatten, hfix c List.mem_cons_self, halone c List.mem_cons_self,
          ihl (fun d hd => hfix d (List.mem_cons_of_mem _ hd)) (fun d hd => halone d (List.mem_cons_of_mem _ hd))]
        rfl
    rw [canonicalCond_node, hflatten operands ih hflat]
    rcases gather_cases is_and operands with ⟨c, heq, -⟩ | ⟨-, hgather⟩
    · rw [arranged_eq hsorted] at heq
      rw [heq] at hlen
      exact absurd rfl hlen
    · rw [hgather, arranged_eq hsorted]

/-! ## What the form holds -/

/-- What a node of this operator over the operands holds. -/
def holdsAll (truth : Oracle.Atom → Bool) (is_and : Bool) (l : List Cond) : Bool :=
  if is_and then l.all (Cond.holds truth) else l.any (Cond.holds truth)

theorem holds_node : (node is_and l).holds truth = holdsAll truth is_and l := by
  cases is_and with
  | true => exact holds_and
  | false => exact holds_or

theorem holdsAll_append {m : List Cond} : holdsAll truth is_and (l ++ m) =
    applyOp is_and (holdsAll truth is_and l) (holdsAll truth is_and m) := by
  cases is_and with
  | true => exact List.all_append
  | false => exact List.any_append

theorem holdsAll_congr {m : List Cond} (h : ∀ c, c ∈ l ↔ c ∈ m) :
    holdsAll truth is_and l = holdsAll truth is_and m := by
  cases is_and with
  | true =>
    rw [holdsAll, holdsAll, if_pos rfl, if_pos rfl, Bool.eq_iff_iff, List.all_eq_true, List.all_eq_true]
    simp only [h]
  | false =>
    rw [holdsAll, holdsAll, if_neg Bool.false_ne_true, if_neg Bool.false_ne_true, Bool.eq_iff_iff, List.any_eq_true,
      List.any_eq_true]
    simp only [h]

theorem holdsAll_singleton : holdsAll truth is_and [c] = c.holds truth := by
  cases is_and <;> simp [holdsAll]

theorem holdsAll_spread : holdsAll truth is_and (spread is_and c) = c.holds truth := by
  cases c with
  | and operands span =>
    cases is_and with
    | true => exact holds_and.symm
    | false => exact holdsAll_singleton
  | or operands span =>
    cases is_and with
    | true => exact holdsAll_singleton
    | false => exact holds_or.symm
  | _ => exact holdsAll_singleton

theorem holds_gather (h : ∀ c ∈ flat, Canonical c) : (gather is_and flat).holds truth = holdsAll truth is_and flat := by
  rw [← holdsAll_congr fun c => mem_arranged (c := c) h]
  rcases gather_cases is_and flat with ⟨c, heq, hgather⟩ | ⟨-, hgather⟩
  · rw [heq, hgather, holdsAll_singleton]
  · rw [hgather, holds_node]

mutual

theorem holds_canonicalCond : ∀ c : Cond, (canonicalCond c).holds truth = c.holds truth
  | .status job st lookback _ => by
    cases lookback <;> rfl
  | .exitcode job op value lookback _ => by
    cases lookback <;> rfl
  | .global name op value _ => rfl
  | .and operands _ => by
    rw [canonicalCond, holds_gather fun c hc => (flatten_canonical operands c hc).1, holdsAll_flatten true operands]
    exact holds_and.symm
  | .or operands _ => by
    rw [canonicalCond, holds_gather fun c hc => (flatten_canonical operands c hc).1, holdsAll_flatten false operands]
    exact holds_or.symm
  | .paren inner _ => by
    rw [canonicalCond, holds_canonicalCond inner, holds_paren]

theorem holdsAll_flatten (is_and : Bool) : ∀ l : List Cond,
    holdsAll truth is_and (flatten is_and l) = holdsAll truth is_and l
  | [] => by rw [flatten]
  | operand :: rest => by
    rw [flatten, holdsAll_append, holdsAll_spread, holds_canonicalCond operand, holdsAll_flatten is_and rest,
      ← holdsAll_singleton (c := operand), ← holdsAll_append]
    rfl

end

/-- The tree that is built holds what the expression says from left to right, and its canonical form
holds the same and is its own. -/
theorem build_left_to_right {e : Expr} (h : e.build = .ok c) (truth : Oracle.Atom → Bool) :
    c.erase.holds truth =
        e.steps.foldl (fun v step => applyOp step.1 v (step.2.value truth)) (e.first.value truth) ∧
      canonicalCond (canonicalCond c) = canonicalCond c ∧
      (canonicalCond c).erase.holds truth = c.erase.holds truth := by
  refine ⟨?_, (canonicalCond_canonical c).canonicalCond_eq, holds_canonicalCond c⟩
  rw [← e.value_eq_foldl truth]
  exact e.build_holds h

/-- `s(a) | s(b) & (s(b))`. -/
def mixedRun : Expr :=
  let s (name : String) : Operand := .atom (.status_atom "s" ⟨name, none⟩ none) none
  .binop (.binop (.operand (s "a")) "|" (s "b") none) "&" (.paren (.operand (s "b")) none) none

/-- The atoms on `b`. -/
def onlyB (a : Oracle.Atom) : Bool := a.entityKey = "b"

theorem build_left_to_right_mixed :
    ∃ c, mixedRun.build = .ok c ∧ c.erase.holds onlyB =
        mixedRun.steps.foldl (fun v step => applyOp step.1 v (step.2.value onlyB)) (mixedRun.first.value onlyB) ∧
      canonicalCond (canonicalCond c) = canonicalCond c ∧
      (canonicalCond c).erase.holds onlyB = c.erase.holds onlyB :=
  ⟨_, rfl, build_left_to_right rfl onlyB⟩

end Dsl41.Conditions
