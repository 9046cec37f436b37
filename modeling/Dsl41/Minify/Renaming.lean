import Dsl41.Minify.Atoms

/-!
# Renaming an atom

The rewrite of an atom finds its names by searches in the atom's text. On an atom that is spelled as the
parser takes it, the searches find the job's or the global's name and the value; they find an instance
where no blank stands beside its caret.
-/

namespace Dsl41.Minify

open Infra Conditions

/-! ## Legal names -/

def IsJobName (name : String) : Prop := name.toList ≠ [] ∧ ∀ c ∈ name.toList, isNameChar c = true ∨ c = ':'

def IsInstanceName (name : String) : Prop := name.toList ≠ [] ∧ ∀ c ∈ name.toList, isInstanceChar c = true

def IsGlobalName (name : String) : Prop := name.toList ≠ [] ∧ ∀ c ∈ name.toList, isGlobalChar c = true

def IsBareValue (value : String) : Prop := value.toList ≠ [] ∧ ∀ c ∈ value.toList, isBareChar c = true

/-- A name becomes a name, and a value one that can stand where it stood: a bare one opens no quotes and
makes no operator longer, and a quoted one closes none. -/
structure Allocator.Legal (alloc : Allocator) : Prop where
  job : ∀ name, IsJobName name → IsJobName (alloc.job name)
  instance_ : ∀ name, IsInstanceName name → IsInstanceName (alloc.simple .instance_ name)
  global : ∀ name, IsGlobalName name → IsGlobalName (alloc.simple .global name)
  bare : ∀ value, IsBareValue value →
    IsBareValue (alloc.gvalue value) ∧ ∀ c ∈ (alloc.gvalue value).toList.head?, c ≠ '"' ∧ c ≠ '='
  quoted : ∀ value, '"' ∉ value.toList → '"' ∉ (alloc.gvalue value).toList

structure Allocator.Injective (alloc : Allocator) : Prop where
  job : Function.Injective alloc.job
  simple : ∀ namespace_, Function.Injective (alloc.simple namespace_)
  gvalue : Function.Injective alloc.gvalue

/-! ## The renamed pieces -/

/-- The instance stands right after its caret, and the caret right after the name. -/
def RefText.Glued (r : RefText) : Prop := ∀ x ∈ r.suffix, x.1 = [] ∧ x.2.1 = []

instance (r : RefText) : Decidable r.Glued := inferInstanceAs (Decidable (∀ x ∈ r.suffix, x.1 = [] ∧ x.2.1 = []))

section Pieces

variable (alloc : Allocator)

def newInstance (inst : List Char) : List Char := (alloc.simple .instance_ (String.ofList inst)).toList

/-- A reference with its name and its instance renamed. -/
def RefText.renamed (r : RefText) : RefText where
  lead := r.lead
  name := escapeJobName (alloc.job (unescapeJobName (String.ofList r.name)))
  suffix := r.suffix.map fun x => (x.1, x.2.1, newInstance alloc x.2.2)

/-- A reference with what is found of it renamed. -/
def RefText.found (r : RefText) : RefText :=
  if r.Glued then r.renamed alloc else { r.renamed alloc with suffix := r.suffix }

def inQuotes (text : List Char) : ValueToken := .quoted (String.ofList ('"' :: (text ++ ['"'])))

/-- What stands between the quotes of a quoted value, and a bare value itself. -/
def renamedValue : ValueToken → ValueToken
  | .quoted text => inQuotes (alloc.gvalue (ValueToken.build (.quoted text))).toList
  | .bare text => .bare (alloc.gvalue text)

/-- A quote alone passes for a quoted text. -/
def foundValue : ValueToken → ValueToken
  | .bare text => if text = "\"" then inQuotes (alloc.gvalue "").toList else .bare (alloc.gvalue text)
  | value => renamedValue alloc value

/-- An atom with all its names renamed. -/
def AtomText.renamed : AtomText → AtomText
  | .job head ref tail => .job head (ref.renamed alloc) tail
  | .global head name between value =>
    .global head (alloc.simple .global (String.ofList name)).toList between (renamedValue alloc value)

/-- An atom with what the rewrite finds renamed. -/
def AtomText.found : AtomText → AtomText
  | .job head ref tail => .job head (ref.found alloc) tail
  | .global head name between value =>
    .global head (alloc.simple .global (String.ofList name)).toList between (foundValue alloc value)

end Pieces

/-! ## The searches -/

section Searches

variable {alloc : Allocator} {s rest blanks : List Char} {c : Char}

/-- A search passes what no match begins with. -/
theorem search_skip {α : Type} {pattern : List Char → Option (α × List Char)} {found : α × List Char}
    {skipped : List Char} (hskip : ∀ c ∈ skipped, ∀ s, pattern (c :: s) = none) (h : pattern s = some found) :
    search pattern (skipped ++ s) = some (skipped, found) := by
  induction skipped with
  | nil =>
    cases s with
    | nil => rw [List.nil_append, search, h]; rfl
    | cons c s => rw [List.nil_append, search, h]
  | cons d skipped ih =>
    rw [List.cons_append, search, hskip d List.mem_cons_self, ih fun c hc => hskip c (List.mem_cons_of_mem d hc)]
    rfl

theorem isSpace_blank (h : isWs c = true) : Jil.isSpace c = true := by
  have hall : Conditions.blanks.all Jil.isSpace = true := by decide
  exact List.all_eq_true.mp hall c (mem_blanks h)

theorem jobName_blank (h : isWs c = true) (s : List Char) : jobName (c :: s) = none := by
  have hc : isNameChar c = false ∧ c ≠ '\\' := by
    have hmem := mem_blanks h
    simp only [Conditions.blanks, List.mem_cons, List.not_mem_nil, or_false] at hmem
    rcases hmem with rfl | rfl | rfl | rfl | rfl <;> decide
  rw [jobName, escapedSpan, hc.1]
  · rfl
  · rintro rest rfl
    exact absurd rfl hc.2

theorem charsOf_blank {p : Char → Bool} (hp : Conditions.blanks.any p = false) (h : isWs c = true) (s : List Char) :
    charsOf p (c :: s) = none := by
  have hc : p c = false := Bool.eq_false_iff.mpr fun hpc => Bool.false_ne_true ((not_isWs hp hpc).symm.trans h)
  rw [charsOf, List.takeWhile_cons, hc]
  rfl

theorem exists_letter {word taken : List Char} (h : List.Forall₂ (fun k c => sameLetter k c = true) word taken)
    (hc : c ∈ taken) : ∃ k ∈ word, sameLetter k c = true := by
  induction h with
  | nil => cases hc
  | @cons k d word taken hletter _ ih =>
    rcases List.mem_cons.mp hc with rfl | hc
    · exact ⟨k, List.mem_cons_self, hletter⟩
    · obtain ⟨k', hk', hsame⟩ := ih hc
      exact ⟨k', List.mem_cons_of_mem k hk', hsame⟩

theorem afterParen_opens {words : List (List Char)} {kw : List Char} (hwords : Letters words) (h : Opens words kw blanks)
    (s : List Char) : afterParen (kw ++ (blanks ++ '(' :: s)) = .ok (kw ++ (blanks ++ ['(']), s) := by
  have hkw : ∀ d ∈ kw ++ blanks, (decide (d ≠ '(') : Bool) = true := by
    intro d hd
    refine decide_eq_true ?_
    rintro rfl
    rcases List.mem_append.mp hd with hd | hd
    · obtain ⟨-, word, hmem, hall⟩ := oneOf_split h.keyword
      obtain ⟨k, hk, hletter⟩ := exists_letter hall hd
      exact Bool.false_ne_true ((hwords '(' List.mem_cons_self word hmem k hk).symm.trans hletter)
    · exact Bool.false_ne_true (h.blank '(' hd)
  rw [afterParen, ← List.append_assoc, List.dropWhile_append_of_pos hkw, List.takeWhile_append_of_pos hkw]
  simp

theorem head_caret {d : Char} (hblank : Blank blanks) (hd : d ≠ '^') : ∀ c ∈ (blanks ++ d :: s).head?, c ≠ '^' := by
  cases blanks with
  | nil =>
    rintro c ⟨⟩
    exact hd
  | cons b blanks =>
    rintro c ⟨⟩ rfl
    exact absurd (hblank '^' List.mem_cons_self) (by decide)

theorem search_name {ref : RefText} (href : ref.Ok) (rest : List Char) (hrest : ∀ c ∈ rest.head?, isNameChar c = false ∧ c ≠ '\\') :
    search jobName (ref.lead ++ (ref.name ++ rest)) = some (ref.lead, ref.name, rest) :=
  search_skip (fun c hc s => jobName_blank (href.lead c hc) s) (href.name.read hrest)

/-- The rewrite of an atom about a job renames what it finds, and nothing else. -/
theorem rewriteJobAtom_spelled {words : List (List Char)} {kw tail : List Char} {ref : RefText} (hwords : Letters words)
    (hopen : Opens words kw blanks) (href : ref.Ok) (htail : EndsRef tail) :
    rewriteJobAtom alloc (AtomText.job (kw ++ (blanks ++ ['('])) ref tail).text =
      .ok (AtomText.job (kw ++ (blanks ++ ['('])) (ref.found alloc) tail).text := by
  have htext : (AtomText.job (kw ++ (blanks ++ ['('])) ref tail).text = kw ++ (blanks ++ '(' :: (ref.text ++ tail)) := by
    simp only [AtomText.text, List.append_assoc, List.cons_append, List.nil_append]
  rw [htext, rewriteJobAtom, afterParen_opens hwords hopen]
  simp only [Infra.ok_bind]
  have hinstance := stops_instance htail
  obtain ⟨gap, d, more, rfl, hgap, hd⟩ := htail
  obtain ⟨lead, name, suffix⟩ := ref
  cases suffix with
  | none =>
    have hname := search_name href (gap ++ d :: more) (stops_name hgap (List.mem_cons_of_mem _ hd))
    have hglued : RefText.Glued ⟨lead, name, none⟩ := by simp [RefText.Glued]
    have hcaret : ∀ c ∈ (gap ++ d :: more).head?, c ≠ '^' := head_caret hgap fun heq => by simp [heq] at hd
    simp only [RefText.text, RefText.found, RefText.renamed, if_pos hglued, AtomText.text, List.append_nil,
      List.append_assoc, hname, Option.map_none]
    split
    · next rest heq =>
      rw [heq] at hcaret
      exact absurd rfl (hcaret '^' rfl)
    · rfl
  | some x =>
    obtain ⟨before, after, inst⟩ := x
    obtain ⟨hbefore, hafter, hne, hchars⟩ := href.suffix _ rfl
    dsimp only at hbefore hafter hne hchars
    have hname := search_name href (before ++ '^' :: (after ++ (inst ++ (gap ++ d :: more))))
      (stops_name hbefore List.mem_cons_self)
    simp only [RefText.text, RefText.found, RefText.renamed, AtomText.text, List.append_assoc, List.cons_append, hname,
      Option.map_some]
    cases before with
    | cons b before =>
      have hloose : ¬ RefText.Glued ⟨lead, name, some (b :: before, after, inst)⟩ := fun h => List.cons_ne_nil _ _ (h _ rfl).1
      have hb : b ≠ '^' := by
        rintro rfl
        exact absurd (hbefore '^' List.mem_cons_self) (by decide)
      rw [if_neg hloose]
      simp [hb, pure, Except.pure]
    | nil =>
      cases after with
      | cons b after =>
        have hloose : ¬ RefText.Glued ⟨lead, name, some ([], b :: after, inst)⟩ := fun h => List.cons_ne_nil _ _ (h _ rfl).2
        have hnone := charsOf_blank (p := isInstanceChar) (by rfl) (hafter b List.mem_cons_self)
          (after ++ (inst ++ (gap ++ d :: more)))
        rw [if_neg hloose]
        simp [hnone, pure, Except.pure]
      | nil =>
        have hglued : RefText.Glued ⟨lead, name, some ([], [], inst)⟩ := by
          rintro x ⟨⟩
          exact ⟨rfl, rfl⟩
        rw [if_pos hglued]
        simp [charsOf_append hne hchars hinstance, newInstance, pure, Except.pure]

theorem blank_space (hblank : Blank blanks) (hc : Jil.isSpace c = false) :
    (blanks ++ c :: s).takeWhile Jil.isSpace = blanks ∧ (blanks ++ c :: s).dropWhile Jil.isSpace = c :: s := by
  have hspace : ∀ b ∈ blanks, Jil.isSpace b = true := fun b hb => isSpace_blank (hblank b hb)
  rw [List.takeWhile_append_of_pos hspace, List.dropWhile_append_of_pos hspace, List.takeWhile_cons, List.dropWhile_cons,
    hc, if_neg Bool.false_ne_true, if_neg Bool.false_ne_true, List.append_nil]
  exact ⟨rfl, rfl⟩

theorem op_head {word : List Char} {op : Oracle.CmpOp} (hmem : (word, op) ∈ CMP_OP) :
    ∃ c more, word = c :: more ∧ Jil.isSpace c = false := by
  simp only [CMP_OP, List.mem_cons, Prod.mk.injEq, List.not_mem_nil, or_false] at hmem
  rcases hmem with ⟨rfl, rfl⟩ | ⟨rfl, rfl⟩ | ⟨rfl, rfl⟩ | ⟨rfl, rfl⟩ | ⟨rfl, rfl⟩ | ⟨rfl, rfl⟩
  all_goals exact ⟨_, _, rfl, by decide⟩

theorem value_space {value : ValueToken} (h : ValueText value) :
    ∃ c more, valueText value = c :: more ∧ Jil.isSpace c = false := by
  cases h with
  | quoted hbetween => exact ⟨'"', _, by rw [valueText, String.toList_ofList], by decide⟩
  | @bare run hne hall =>
    cases run with
    | nil => exact absurd rfl hne
    | cons c run =>
      refine ⟨c, run, by rw [valueText, String.toList_ofList], ?_⟩
      have hc := hall c List.mem_cons_self
      simp only [isBareChar, Bool.not_eq_true', Bool.or_eq_false_iff] at hc
      exact hc.1.1.1.1

/-- An operator that does not begin a text reads no comparand of it. -/
theorem comparands_none {s gap : List Char} {ops : List (List Char × Oracle.CmpOp)}
    (hops : ∀ w ∈ ops, takeWord w.1 s = none) : (ops.findSome? fun w => do
      let (op, rest) ← takeWord w.1 s
      let (raw, rest') ← (quoted (rest.dropWhile Jil.isSpace)).or (charsOf isBareChar (rest.dropWhile Jil.isSpace))
      some ((')' :: (gap ++ (op ++ rest.takeWhile Jil.isSpace)), raw), rest')) = none :=
  List.findSome?_eq_none_iff.mpr fun w hw => by rw [hops w hw]; rfl

/-- The comparison that a global's parentheses end with. -/
theorem comparand_spelled {gap word gap' : List Char} {op : Oracle.CmpOp} {value : ValueToken} (hgap : Blank gap)
    (hop : (word, op) ∈ CMP_OP) (hgap' : Blank gap') (hvalue : ValueText value)
    (hstop : ∀ c ∈ (gap' ++ valueText value).head?, Stops word c) (hends : EndsValue value []) :
    comparand (')' :: (gap ++ (word ++ (gap' ++ valueText value)))) =
      some ((')' :: (gap ++ (word ++ gap')), valueText value), []) := by
  obtain ⟨c, more, hword, hc⟩ := op_head hop
  obtain ⟨d, text, htext, hd⟩ := value_space hvalue
  have hblanks : (gap ++ (word ++ (gap' ++ valueText value))).takeWhile Jil.isSpace = gap ∧
      (gap ++ (word ++ (gap' ++ valueText value))).dropWhile Jil.isSpace = word ++ (gap' ++ valueText value) := by
    rw [hword]
    exact blank_space hgap hc
  have hblanks' : (gap' ++ valueText value).takeWhile Jil.isSpace = gap' ∧
      (gap' ++ valueText value).dropWhile Jil.isSpace = valueText value := by
    rw [htext]
    exact blank_space hgap' hd
  have hread : (quoted (valueText value)).or (charsOf isBareChar (valueText value)) = some (valueText value, []) := by
    cases hvalue with
    | quoted hbetween =>
      have hquoted := quoted_append hbetween []
      rw [List.append_nil] at hquoted
      rw [valueText, String.toList_ofList, hquoted, Option.some_or]
    | @bare run hne hall =>
      obtain ⟨hquoted, -⟩ := hends
      have hbare : charsOf isBareChar (run ++ []) = some (run, []) := charsOf_append hne hall (by simp)
      rw [String.toList_ofList, List.append_nil] at hquoted
      rw [List.append_nil] at hbare
      rw [valueText, String.toList_ofList, hquoted, Option.none_or, hbare]
  obtain ⟨e, tail, htail⟩ : ∃ e tail, gap' ++ valueText value = e :: tail := by
    rw [htext]
    cases gap' with
    | nil => exact ⟨_, _, rfl⟩
    | cons e gap' => exact ⟨_, _, rfl⟩
  obtain ⟨earlier, later, hlist, hearlier, htaken⟩ := cmpOp_first (s := tail) hop (hstop e (by rw [htail]; rfl))
  rw [← htail] at hearlier htaken
  rw [comparand, hblanks.1, hblanks.2, hlist, List.findSome?_append]
  rw [comparands_none hearlier, Option.none_or, List.findSome?_cons, htaken]
  simp only [Option.bind_eq_bind, Option.bind_some, hblanks'.1, hblanks'.2, hread]

theorem quoted_of_ends {run : List Char} (hne : run ≠ ['"']) (hhead : run.head? = some '"') (hlast : run.getLast? = some '"') :
    quoted run ≠ none := by
  cases run with
  | nil => cases hhead
  | cons c run =>
    cases hhead
    have hmem : '"' ∈ run := by
      cases run with
      | nil => exact absurd rfl hne
      | cons d run =>
        rw [List.getLast?_cons_cons] at hlast
        exact List.mem_of_getLast? hlast
    rw [quoted]
    cases hdrop : run.dropWhile (· ≠ '"') with
    | nil => exact absurd (List.dropWhile_eq_nil_iff.mp hdrop '"' hmem) (by decide)
    | cons c after => exact Option.some_ne_none _

theorem rewriteValue_spelled {value : ValueToken} (h : ValueText value) (hends : EndsValue value []) :
    rewriteValue alloc (valueText value) = valueText (foundValue alloc value) := by
  cases h with
  | @quoted between hbetween =>
    have hends' : ('"' :: (between ++ ['"'])).head? = some '"' ∧ ('"' :: (between ++ ['"'])).getLast? = some '"' :=
      ⟨rfl, by rw [← List.cons_append, List.getLast?_concat]⟩
    have hfound : foundValue alloc (.quoted (String.ofList ('"' :: (between ++ ['"'])))) =
        inQuotes (alloc.gvalue (String.ofList (('"' :: (between ++ ['"'])).drop 1).dropLast)).toList := by
      show inQuotes (alloc.gvalue (ValueToken.build (.quoted _))).toList = _
      rw [ValueToken.build, String.toList_ofList]
    rw [hfound, rewriteValue, valueText, String.toList_ofList, if_pos hends', inQuotes, valueText, String.toList_ofList]
  | @bare run hne hall =>
    obtain ⟨hquoted, -⟩ := hends
    rw [String.toList_ofList, List.append_nil] at hquoted
    by_cases hquote : run = ['"']
    · have hname : String.ofList run = "\"" := (congrArg String.ofList hquote).trans rfl
      have hbetween : String.ofList (['"'].drop 1).dropLast = "" := rfl
      rw [rewriteValue, valueText, String.toList_ofList, foundValue, if_pos hname, hquote, if_pos ⟨rfl, rfl⟩, hbetween,
        inQuotes, valueText, String.toList_ofList]
    · have hopen : ¬ (run.head? = some '"' ∧ run.getLast? = some '"') := fun h =>
        quoted_of_ends hquote h.1 h.2 hquoted
      have hname : String.ofList run ≠ "\"" := fun heq => hquote (String.toList_ofList.symm.trans (congrArg String.toList heq))
      rw [rewriteValue, valueText, String.toList_ofList, if_neg hopen, foundValue, if_neg hname, valueText]

/-- The rewrite of an atom about a global. -/
theorem rewriteGlobalAtom_spelled {a : AtomText} {kw name : String} {op : Oracle.CmpOp} {value : ValueToken}
    (h : Spelled a (.global_atom kw name op value)) (hends : EndsValue value []) :
    rewriteGlobalAtom alloc a.text = .ok (a.found alloc).text := by
  cases h with
  | @global kw blanks lead name gap gap' word gap'' op value hopen hlead hne hname hgap hgap' hop hgap'' hvalue hstop =>
    have htext : (AtomText.global (kw ++ (blanks ++ '(' :: lead)) name (gap ++ ')' :: (gap' ++ (word ++ gap''))) value).text =
        kw ++ (blanks ++ '(' :: (lead ++ (name ++ (gap ++ ')' :: (gap' ++ (word ++ (gap'' ++ valueText value))))))) := by
      simp only [AtomText.text, List.append_assoc, List.cons_append]
    have hsearch : search (charsOf isGlobalChar) (lead ++ (name ++ (gap ++ ')' :: (gap' ++ (word ++ (gap'' ++ valueText value)))))) =
        some (lead, name, gap ++ ')' :: (gap' ++ (word ++ (gap'' ++ valueText value)))) :=
      search_skip (fun c hc s => charsOf_blank (by rfl) (hlead c hc) s) (charsOf_append hne hname (stops_global hgap))
    have hcomparand : search comparand (gap ++ ')' :: (gap' ++ (word ++ (gap'' ++ valueText value)))) =
        some (gap, (')' :: (gap' ++ (word ++ gap'')), valueText value), []) := by
      refine search_skip (fun c hc s => ?_) (comparand_spelled hgap' hop hgap'' hvalue hstop hends)
      have hparen : c ≠ ')' := by
        rintro rfl
        exact absurd (hgap ')' hc) (by decide)
      simp [comparand, hparen]
    rw [htext, rewriteGlobalAtom, afterParen_opens letters_keywords.2.2 hopen]
    simp only [Infra.ok_bind, hsearch, hcomparand, rewriteValue_spelled hvalue hends, AtomText.found, AtomText.text,
      List.append_assoc, List.cons_append, List.nil_append, List.append_nil]
    rfl

end Searches

/-! ## The renamed tree -/

/-- An atom whose names the searches all find. -/
def AtomText.Found : AtomText → Prop
  | .job _ ref _ => ref.Glued
  | .global _ _ _ value => valueText value ≠ ['"']

instance : ∀ a : AtomText, Decidable a.Found
  | .job _ ref _ => inferInstanceAs (Decidable ref.Glued)
  | .global _ _ _ value => inferInstanceAs (Decidable (valueText value ≠ ['"']))

section Trees

variable (alloc : Allocator)

def renameJob (job : Oracle.JobRef) : Oracle.JobRef := ⟨alloc.job job.name, job.instance_.map (alloc.simple .instance_)⟩

/-- An atom's tree with every name taken through the allocator; it has no span. -/
def renameAtom : Cond → Cond
  | .status job status lookback _ => .status (renameJob alloc job) status lookback none
  | .exitcode job op value lookback _ => .exitcode (renameJob alloc job) op value lookback none
  | .global name op value _ => .global (alloc.simple .global name) op (alloc.gvalue value) none
  | c => c

/-- An atom's tree where the instance is passed over, and the value's quote. -/
def passOver : Cond → Cond
  | .status job status lookback _ => .status { job with name := alloc.job job.name } status lookback none
  | .exitcode job op value lookback _ => .exitcode { job with name := alloc.job job.name } op value lookback none
  | .global name op _ _ => .global (alloc.simple .global name) op (alloc.gvalue "") none
  | c => c

def foundAtom (a : AtomText) (c : Cond) : Cond := if a.Found then renameAtom alloc c else passOver alloc c

end Trees

def unspanned : Cond → Cond
  | .status job status lookback _ => .status job status lookback none
  | .exitcode job op value lookback _ => .exitcode job op value lookback none
  | .global name op value _ => .global name op value none
  | c => c

section Renamed

variable {alloc : Allocator} {rest rest' : List Char}

theorem nameText_escape {name : String} (h : IsJobName name) : NameText (escapeJobName name) := by
  have hread : escapedSpan isNameChar (escape name.toList ++ [')']) = (escape name.toList, [')']) :=
    escapedSpan_escape ⟨')', [], rfl, by decide⟩ name.toList h.2
  refine ⟨escape_ne_nil h.1, ?_⟩
  have hsplit := (escapedSpan_split (escape name.toList ++ [')'])).2
  rwa [hread] at hsplit

theorem isJobName_unescape {name : List Char} (h : NameText name) : IsJobName (unescapeJobName (String.ofList name)) := by
  have hchars := unescape_span name
  rw [h.whole] at hchars
  rw [IsJobName, unescapeJobName, String.toList_ofList, String.toList_ofList]
  exact ⟨unescape_ne_nil h.ne, hchars⟩

theorem unescape_escapeJobName {name : String} (h : IsJobName name) :
    unescapeJobName (String.ofList (escapeJobName name)) = name := by
  rw [unescapeJobName, String.toList_ofList, escapeJobName, unescape_escape _ h.2, String.ofList_toList]

theorem isInstanceName_of {inst : List Char} (hne : inst ≠ []) (h : ∀ c ∈ inst, isInstanceChar c = true) :
    IsInstanceName (String.ofList inst) := by
  rw [IsInstanceName, String.toList_ofList]
  exact ⟨hne, h⟩

theorem RefText.Ok.renamed {r : RefText} (legal : alloc.Legal) (h : r.Ok) : (r.renamed alloc).Ok where
  lead := h.lead
  name := nameText_escape (legal.job _ (isJobName_unescape h.name))
  suffix := by
    intro x hx
    obtain ⟨y, hy, rfl⟩ := Option.map_eq_some_iff.mp hx
    obtain ⟨hbefore, hafter, hne, hchars⟩ := h.suffix y hy
    obtain ⟨hne', hchars'⟩ := legal.instance_ _ (isInstanceName_of hne hchars)
    exact ⟨hbefore, hafter, hne', hchars'⟩

theorem RefText.Ok.found {r : RefText} (legal : alloc.Legal) (h : r.Ok) : (r.found alloc).Ok := by
  rw [RefText.found]
  split_ifs
  · exact h.renamed legal
  · exact { h.renamed legal with suffix := h.suffix }

theorem found_build {r : RefText} (legal : alloc.Legal) (h : r.Ok) :
    (r.found alloc).tree.build =
      if r.Glued then renameJob alloc r.tree.build else { r.tree.build with name := alloc.job r.tree.build.name } := by
  have hname : unescapeJobName (String.ofList (r.renamed alloc).name) = alloc.job (unescapeJobName (String.ofList r.name)) :=
    unescape_escapeJobName (legal.job _ (isJobName_unescape h.name))
  rw [RefText.found]
  split_ifs
  · rw [JobTree.build, RefText.tree, hname, renameJob]
    congr 1
    simp only [RefText.renamed, RefText.tree, JobTree.build, Option.map_map]
    congr 1
    funext x
    exact String.ofList_toList
  · rw [JobTree.build]
    exact congrArg (Oracle.JobRef.mk · _) hname

/-! ## The renamed atom -/

/-- A rest that begins as another one does, or is empty. -/
def Ends (rest rest' : List Char) : Prop := ∀ c ∈ rest'.head?, c ∈ rest.head?

theorem quoted_append_rest {s text more : List Char} (h : quoted s = some (text, more)) (rest : List Char) :
    quoted (s ++ rest) = some (text, more ++ rest) := by
  obtain ⟨between, hbetween, rfl, rfl⟩ := quoted_split h
  rw [List.append_assoc, quoted_append hbetween (more ++ rest)]

theorem EndsValue.nil {value : ValueToken} (h : EndsValue value rest) : EndsValue value [] := by
  cases value with
  | quoted text => trivial
  | bare text =>
    refine ⟨?_, nofun⟩
    rw [List.append_nil]
    refine Option.eq_none_iff_forall_ne_some.mpr fun ⟨taken, more⟩ htaken => ?_
    have hread := quoted_append_rest htaken rest
    rw [h.1] at hread
    cases hread

theorem EndsAtom.nil {tree : AtomTree} (h : EndsAtom tree rest) : EndsAtom tree [] := by
  cases tree with
  | status_atom kw job lookback => trivial
  | exitcode_atom kw job lookback op value => exact nofun
  | global_atom kw name op value => exact EndsValue.nil h

theorem inQuotes_text {text : List Char} (h : '"' ∉ text) : ValueText (inQuotes text) := .quoted h

theorem bare_ends {value : String} (h : ∀ c ∈ value.toList.head?, c ≠ '"' ∧ c ≠ '=') (hne : value.toList ≠ [])
    (hrest : ∀ c ∈ rest.head?, isBareChar c = false) : EndsValue (.bare value) rest := by
  refine ⟨?_, hrest⟩
  cases hvalue : value.toList with
  | nil => exact absurd hvalue hne
  | cons c more =>
    rw [hvalue] at h
    unfold quoted
    split
    · next heq => exact absurd (List.cons.inj heq).1 (h c rfl).1
    · rfl

/-- The new value stands where the old one stood. -/
theorem foundValue_text {value : ValueToken} (legal : alloc.Legal) (h : ValueText value) (hends : EndsValue value rest) :
    ValueText (foundValue alloc value) ∧ (∀ c ∈ (valueText (foundValue alloc value)).head?, c ≠ '=') ∧
      ∀ rest', Ends rest rest' → EndsValue (foundValue alloc value) rest' := by
  have hquotes {text : List Char} : ∀ c ∈ (valueText (inQuotes text)).head?, c ≠ '=' := by
    rw [inQuotes, valueText, String.toList_ofList]
    rintro c ⟨⟩
    decide
  cases h with
  | @quoted between hbetween =>
    have hbuild : ValueToken.build (.quoted (String.ofList ('"' :: (between ++ ['"'])))) = String.ofList between := by
      rw [ValueToken.build, String.toList_ofList, List.drop_one, List.tail_cons, List.dropLast_concat]
    have hfound : foundValue alloc (.quoted (String.ofList ('"' :: (between ++ ['"'])))) =
        inQuotes (alloc.gvalue (String.ofList between)).toList := by
      rw [← hbuild]
      rfl
    rw [hfound]
    refine ⟨inQuotes_text (legal.quoted _ ?_), hquotes, fun _ _ => trivial⟩
    rwa [String.toList_ofList]
  | @bare run hne hall =>
    rw [foundValue]
    split_ifs
    · exact ⟨inQuotes_text (legal.quoted _ (by decide)), hquotes, fun _ _ => trivial⟩
    · have hbare : IsBareValue (String.ofList run) := by
        rw [IsBareValue, String.toList_ofList]
        exact ⟨hne, hall⟩
      obtain ⟨⟨hne', hall'⟩, hhead⟩ := legal.bare _ hbare
      refine ⟨?_, fun c hc => (hhead c hc).2, fun rest' hrest' => bare_ends hhead hne' fun c hc => hends.2 c (hrest' c hc)⟩
      have htext := ValueText.bare hne' hall'
      rwa [String.ofList_toList] at htext

theorem foundValue_build {value : ValueToken} (h : ValueText value) :
    (foundValue alloc value).build = if valueText value ≠ ['"'] then alloc.gvalue value.build else alloc.gvalue "" := by
  have hquotes (text : String) : (inQuotes text.toList).build = text := by
    rw [inQuotes, ValueToken.build, String.toList_ofList, List.drop_one, List.tail_cons, List.dropLast_concat,
      String.ofList_toList]
  cases h with
  | @quoted between hbetween =>
    have hne : valueText (.quoted (String.ofList ('"' :: (between ++ ['"'])))) ≠ ['"'] := by
      rw [valueText, String.toList_ofList]
      simp
    rw [if_pos hne]
    exact hquotes _
  | @bare run hne hall =>
    have hiff : String.ofList run = "\"" ↔ valueText (.bare (String.ofList run)) = ['"'] := by
      rw [valueText, String.toList_ofList]
      exact ⟨fun heq => String.toList_ofList.symm.trans (congrArg String.toList heq), fun heq => congrArg String.ofList heq⟩
    rw [foundValue]
    by_cases hquote : String.ofList run = "\""
    · rw [if_pos hquote, if_neg (not_not.mpr (hiff.mp hquote)), hquotes]
    · rw [if_neg hquote, if_pos fun heq => hquote (hiff.mpr heq)]
      rfl

theorem buildLookback_unplaced {found lookback : Option Token} {l : Option Conditions.Lookback}
    (h : (found.map fun token => Token.mk token.text 0) = lookback.map fun token => Token.mk token.text 0)
    (hbuild : buildLookback lookback = .ok l) : buildLookback found = .ok l := by
  cases lookback with
  | none =>
    rw [Option.map_none, Option.map_eq_none_iff] at h
    rw [h]
    exact hbuild
  | some token =>
    obtain ⟨token', rfl, htoken⟩ := Option.map_eq_some_iff.mp h
    obtain ⟨l', hl', hl⟩ := bind_eq_ok.mp hbuild
    cases hl
    have htext : token'.text = token.text := (Token.mk.inj htoken).1
    rw [buildLookback, htext, parseLookback_pos hl']
    rfl

/-- The places of the tokens and the span do not decide what an atom says. -/
theorem build_unplaced {tree found : AtomTree} (h : unplaced found = unplaced tree) {span : Option CondSpan} {c : Cond}
    (hbuild : tree.build span = .ok c) (span' : Option CondSpan) :
    ∃ c', found.build span' = .ok c' ∧ unspanned c' = unspanned c := by
  cases tree with
  | status_atom kw job lookback =>
    obtain ⟨l, hl, hbuild⟩ := bind_eq_ok.mp hbuild
    cases found with
    | status_atom kw' job' lookback' =>
      injection h with hkw hjob hlookback
      subst hkw hjob
      cases hstatus : statusByKw.lookup (lower kw') with
      | none =>
        rw [hstatus] at hbuild
        cases hbuild
      | some status =>
        rw [hstatus] at hbuild
        cases hbuild
        refine ⟨.status job'.build status l span', ?_, rfl⟩
        rw [AtomTree.build, buildLookback_unplaced hlookback hl, Infra.ok_bind, hstatus]
        rfl
    | exitcode_atom kw' job' lookback' op value => cases h
    | global_atom kw' name op value => cases h
  | exitcode_atom kw job lookback op value =>
    obtain ⟨l, hl, hbuild⟩ := bind_eq_ok.mp hbuild
    cases hbuild
    cases found with
    | status_atom kw' job' lookback' => cases h
    | exitcode_atom kw' job' lookback' op' value' =>
      injection h with hkw hjob hlookback hop hvalue
      subst hkw hjob hop hvalue
      refine ⟨.exitcode job'.build op' (intOf value'.toList) l span', ?_, rfl⟩
      rw [AtomTree.build, buildLookback_unplaced hlookback hl]
      rfl
    | global_atom kw' name op value => cases h
  | global_atom kw name op value =>
    cases hbuild
    cases found with
    | status_atom kw' job' lookback' => cases h
    | exitcode_atom kw' job' lookback' op' value' => cases h
    | global_atom kw' name' op' value' =>
      cases h
      exact ⟨_, rfl, rfl⟩

/-- The atom that the rewrite leaves is spelled as an atom is, it ends where the old one ends, and its tree
is the old one's with what was found renamed. -/
theorem Spelled.found {a : AtomText} {tree : AtomTree} (legal : alloc.Legal) (h : Spelled a tree)
    (hends : EndsAtom tree rest) :
    ∃ tree', Spelled (a.found alloc) tree' ∧ (∀ rest', Ends rest rest' → EndsAtom tree' rest') ∧
      ∀ span c, tree.build span = .ok c → ∃ c', tree'.build none = .ok c' ∧ unspanned c' = foundAtom alloc a c := by
  cases h with
  | @status kw blanks close ref lookback hopen href hclose =>
    refine ⟨_, .status hopen (href.found legal) hclose, fun _ _ => trivial, fun span c hbuild => ?_⟩
    obtain ⟨l, hl, hbuild⟩ := bind_eq_ok.mp hbuild
    cases hstatus : statusByKw.lookup (lower (String.ofList kw)) with
    | none =>
      rw [hstatus] at hbuild
      cases hbuild
    | some status =>
      rw [hstatus] at hbuild
      cases hbuild
      refine ⟨.status (ref.found alloc).tree.build status l none, ?_, ?_⟩
      · rw [AtomTree.build, hl, Infra.ok_bind, hstatus]
        rfl
      · rw [unspanned, found_build legal href, foundAtom]
        by_cases hglued : ref.Glued
        · rw [if_pos hglued, if_pos (show AtomText.Found (.job _ ref _) from hglued), renameAtom]
        · rw [if_neg hglued, if_neg (show ¬ AtomText.Found (.job _ ref _) from hglued), passOver]
  | @exitcode kw blanks close gap word gap' digits ref lookback op hopen href hclose hgap hop hgap' hne hdigits =>
    refine ⟨_, .exitcode hopen (href.found legal) hclose hgap hop hgap' hne hdigits,
      fun rest' hrest' c hc => hends c (hrest' c hc), fun span c hbuild => ?_⟩
    obtain ⟨l, hl, hbuild⟩ := bind_eq_ok.mp hbuild
    cases hbuild
    refine ⟨.exitcode (ref.found alloc).tree.build op (intOf (String.ofList digits).toList) l none, ?_, ?_⟩
    · rw [AtomTree.build, hl]
      rfl
    · rw [unspanned, found_build legal href, foundAtom]
      by_cases hglued : ref.Glued
      · rw [if_pos hglued, if_pos (show AtomText.Found (.job _ ref _) from hglued), renameAtom]
      · rw [if_neg hglued, if_neg (show ¬ AtomText.Found (.job _ ref _) from hglued), passOver]
  | @global kw blanks lead name gap gap' word gap'' op value hopen hlead hne hname hgap hgap' hop hgap'' hvalue hstop =>
    obtain ⟨hvalue', hhead, hends'⟩ := foundValue_text legal hvalue hends
    have hglobal : IsGlobalName (alloc.simple .global (String.ofList name)) := by
      refine legal.global _ ?_
      rw [IsGlobalName, String.toList_ofList]
      exact ⟨hne, hname⟩
    have hstop' : ∀ c ∈ (gap'' ++ valueText (foundValue alloc value)).head?, Stops word c := by
      intro c hc _
      cases gap'' with
      | nil => exact hhead c hc
      | cons d gap'' =>
        cases hc
        rintro rfl
        exact absurd ( hgap'' '=' List.mem_cons_self) (by decide)
    refine ⟨_, .global hopen hlead hglobal.1 hglobal.2 hgap hgap' hop hgap'' hvalue' hstop', hends', fun span c hbuild => ?_⟩
    cases hbuild
    refine ⟨_, rfl, ?_⟩
    rw [unspanned, String.ofList_toList, foundValue_build hvalue, foundAtom]
    by_cases hquote : valueText value ≠ ['"']
    · rw [if_pos hquote, if_pos (show AtomText.Found (.global _ _ _ value) from hquote), renameAtom]
    · rw [if_neg hquote, if_neg (show ¬ AtomText.Found (.global _ _ _ value) from hquote), passOver]

end Renamed

end Dsl41.Minify
