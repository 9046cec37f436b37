import Dsl41.StateMachine.Order

/-!
# Completions belong to one occurrence of their state

An entry serial is never reused, so a completion that was queued before its state was left finds
either no active state or a later serial, and is discarded.

* `Shape.Lost` — the occurrence with a given serial is over
* `completion_discarded` — such a completion runs no row
* `run_order` — the order of a macrostep, with this
-/

namespace Dsl41.StateMachine

open Infra

variable {κ υ ω : Type}

/-! ## Serials -/

namespace Shape

/-- No serial beyond the count of entries was given out. -/
def Counted (sh : Shape) : Prop := ∀ s, sh.entered s ≤ sh.entries

/-- The occurrence of `s` with serial `n`, given out before, is over. -/
def Lost (s : Name) (n : Nat) (sh : Shape) : Prop :=
  n ≤ sh.entries ∧ (s ∉ sh.active ∨ n < sh.entered s)

/-- What every exit and every entry keeps. -/
structure Kept (P : Shape → Prop) : Prop where
  exit : ∀ sh s, P sh → P (sh.exit s)
  enter : ∀ sh s, P sh → P (sh.enter s)

theorem kept_counted : Kept Counted where
  exit := fun _ _ h => h
  enter := by
    intro sh s h x
    show Function.update sh.entered s (sh.entries + 1) x ≤ sh.entries + 1
    by_cases hx : x = s
    · rw [hx, Function.update_self]
    · rw [Function.update_of_ne hx]
      exact Nat.le_succ_of_le (h x)

theorem kept_entries {n : Nat} : Kept fun sh => n ≤ sh.entries where
  exit := fun _ _ h => h
  enter := fun _ _ h => Nat.le_succ_of_le h

theorem kept_lost {s : Name} {n : Nat} : Kept (Lost s n) where
  exit := by
    rintro sh x ⟨hn, h⟩
    refine ⟨hn, h.imp_left fun hs => ?_⟩
    exact fun hm => hs (Finset.mem_of_mem_erase hm)
  enter := by
    rintro sh x ⟨hn, h⟩
    refine ⟨Nat.le_succ_of_le hn, ?_⟩
    show s ∉ insert x sh.active ∨ n < Function.update sh.entered x (sh.entries + 1) s
    by_cases hx : s = x
    · rw [hx, Function.update_self]
      exact Or.inr (Nat.lt_succ_of_le hn)
    · rw [Function.update_of_ne hx, Finset.mem_insert, not_or]
      exact h.imp_left fun hs => ⟨hx, hs⟩

theorem Kept.exitAll {P : Shape → Prop} (hP : Kept P) : ∀ {l : List Name} {sh : Shape},
    P sh → P (sh.exitAll l)
  | [], _, h => h
  | s :: l, sh, h => Kept.exitAll (l := l) hP (hP.exit sh s h)

theorem Kept.enterAll {P : Shape → Prop} (hP : Kept P) : ∀ {l : List Name} {sh : Shape},
    P sh → P (sh.enterAll l)
  | [], _, h => h
  | s :: l, sh, h => Kept.enterAll (l := l) hP (hP.enter sh s h)

theorem lost_exitAll {s : Name} {n : Nat} {l : List Name} {sh : Shape} (hn : n ≤ sh.entries)
    (hs : s ∈ l) : (sh.exitAll l).Lost s n :=
  ⟨kept_entries.exitAll hn, Or.inl fun hm => (mem_exitAll.mp hm).2 hs⟩

end Shape

open Shape

theorem RowsRun.keeps {P : Shape → Prop} (hP : Kept P) {ix : Index} {sh sh' : Shape}
    {rows : List Row} {left entered : List Name} (h : RowsRun ix sh rows sh' left entered)
    (hsh : P sh) : P sh' := by
  induction h with
  | nil => exact hsh
  | cons _ _ ih => exact ih (hP.enterAll (hP.exitAll hsh))

theorem RowsRun.lost {ix : Index} {sh sh' : Shape} {rows : List Row} {left entered : List Name}
    (h : RowsRun ix sh rows sh' left entered) {s : Name} {n : Nat} (hn : n ≤ sh.entries)
    (hs : s ∈ left) : sh'.Lost s n := by
  induction h with
  | nil => cases hs
  | cons _ hrest ih =>
    rcases List.mem_append.mp hs with hs | hs
    · exact hrest.keeps kept_lost (kept_lost.enterAll (lost_exitAll hn hs))
    · exact ih (kept_entries.enterAll (kept_entries.exitAll hn)) hs

theorem FireRun.keeps {P : Shape → Prop} (hP : Kept P) {ix : Index} {sh sh' : Shape}
    {rows : List Row} {kind : OutcomeKind} {left entered : List Name}
    (h : FireRun ix sh rows kind sh' left entered) (hsh : P sh) : P sh' := by
  cases h with
  | started _ hs => exact hs.keeps hP (hP.enterAll hsh)
  | rows _ hs => exact hs.keeps hP hsh

theorem FireRun.lost {ix : Index} {sh sh' : Shape} {rows : List Row} {kind : OutcomeKind}
    {left entered : List Name} (h : FireRun ix sh rows kind sh' left entered) {s : Name} {n : Nat}
    (hn : n ≤ sh.entries) (hs : s ∈ left) : sh'.Lost s n := by
  cases h with
  | started _ hrun => exact hrun.lost (kept_entries.enterAll hn) hs
  | rows _ hrun => exact hrun.lost hn hs

/-! ## One microstep -/

/-- The instance of `key` is there and its shape satisfies `P`. -/
def Records.At (r : Records κ υ ω) (key : κ) (P : Shape → Prop) : Prop :=
  ∃ inst, r.instances key = some inst ∧ P inst.shape

variable [DecidableEq κ] {r r' : Records κ υ ω} {item : Item κ υ} {out : Outcome κ υ}
  {q : Queued κ υ}

theorem microstep_keeps {P : Shape → Prop} (hP : Kept P) {key : κ}
    (h : microstep r item = .ok (r', out, q)) (hat : r.At key P) : r'.At key P := by
  by_cases hk : key = item.key
  · subst hk
    obtain ⟨inst, hi, hsh⟩ := hat
    obtain ⟨_, hi', hrun⟩ := microstep_cases h
    rw [hi] at hi'
    cases hi'
    cases hrun with
    | discarded _ => exact ⟨inst, hi, hsh⟩
    | @deferred states _ _ _ hr =>
      exact ⟨{ inst with deferred := inst.deferred ++ [⟨item.event, states⟩] },
        by rw [hr]; exact write_self, hsh⟩
    | ran _ hf =>
      obtain ⟨sh, left, entered, -, hfire, hm, -⟩ := fire_spec hi hf
      obtain ⟨inst', hi', -, -, -, -, hs⟩ := hm.own inst hi
      exact ⟨inst', hi', hs ▸ hfire.keeps hP hsh⟩
  · obtain ⟨inst, hi, hsh⟩ := hat
    exact ⟨inst, ((microstep_frame h).1 key hk).trans hi, hsh⟩

/-- A microstep that leaves a state ends the occurrences it had. -/
theorem microstep_left {s : Name} {n : Nat} (h : microstep r item = .ok (r', out, q))
    (hat : r.At item.key fun sh => n ≤ sh.entries) (hs : s ∈ q.left) :
    r'.At item.key (Lost s n) := by
  obtain ⟨inst, hi, hn⟩ := hat
  obtain ⟨_, hi', hrun⟩ := microstep_cases h
  rw [hi] at hi'
  cases hi'
  cases hrun with
  | discarded _ => cases hs
  | deferred _ _ _ => cases hs
  | ran _ hf =>
    obtain ⟨sh, left, entered, -, hfire, hm, -, -, hl, -⟩ := fire_spec hi hf
    obtain ⟨inst', hi', -, -, -, -, hsh⟩ := hm.own inst hi
    exact ⟨inst', hi', hsh ▸ hfire.lost hn (hl ▸ hs)⟩

/-- A queued completion carries the serial of its state. -/
theorem microstep_completion {c : Item κ υ} (h : microstep r item = .ok (r', out, q))
    (hc : c ∈ q.completions) : c.kind = .completion ∧ c.key = item.key ∧
      ∃ inst', r'.instances item.key = some inst' ∧ c.serial = inst'.entered c.name := by
  obtain ⟨inst, hi, hrun⟩ := microstep_cases h
  cases hrun with
  | discarded _ => cases hc
  | deferred _ _ _ => cases hc
  | ran _ hf =>
    obtain ⟨sh, left, entered, inst', -, -, hi', -, -, -, -, -, hq⟩ := fire_spec hi hf
    rw [hq] at hc
    obtain ⟨s, -, rfl⟩ := List.mem_map.mp hc
    exact ⟨rfl, rfl, inst', hi', rfl⟩

/-- A completion of a lost occurrence runs no row. -/
theorem microstep_lost (hk : item.kind = .completion)
    (hat : r.At item.key (Lost item.name item.serial)) :
    microstep r item = .ok (r, outcome item .discarded, {}) := by
  obtain ⟨inst, hi, -, hl⟩ := hat
  have hgone : occurrenceGone inst item = true := by
    unfold occurrenceGone
    rcases hl with hl | hl
    · simp [show item.name ∉ inst.active from hl]
    · have : inst.entered item.name ≠ item.serial := Nat.ne_of_gt hl
      simp [this]
  unfold microstep
  rw [get_eq_ok.mpr hi]
  simp only [bind, Except.bind, hk, hgone, if_true]
  rfl

/-! ## Rounds -/

/-- Rounds of a run, with the microsteps they did. -/
inductive Rounds (after : Hook κ υ ω) :
    Executor κ υ ω → List (Handled κ υ) → Executor κ υ ω → Prop
  | refl {e : Executor κ υ ω} : Rounds after e [] e
  | silent {e e₁ e' : Executor κ υ ω} {ts : List (Handled κ υ)}
      (h : e.turn after = .ok (some (e₁, none))) (hr : Rounds after e₁ ts e') :
      Rounds after e ts e'
  | step {e e' : Executor κ υ ω} {item : Item κ υ} {rest children : List (Item κ υ)}
      {r : Records κ υ ω} {t : Handled κ υ} {ts : List (Handled κ υ)}
      (hw : e.worklist = item :: rest) (h : handle after e.records item = .ok (r, t, children))
      (hr : Rounds after { e with records := r, worklist := children ++ rest } ts e') :
      Rounds after e (t :: ts) e'

variable {after : Hook κ υ ω}

theorem Rounds.trans {e e₁ e' : Executor κ υ ω} {ts us : List (Handled κ υ)}
    (h : Rounds after e ts e₁) (h' : Rounds after e₁ us e') : Rounds after e (ts ++ us) e' := by
  induction h with
  | refl => exact h'
  | silent h _ ih => exact .silent h (ih h')
  | step hw h _ ih => exact .step hw h (ih h')

theorem rounds_of_loop {w : List (Item κ υ)} {ts : List (Handled κ υ)}
    (h : Loop (handle after) r w ts r') : ∀ {e : Executor κ υ ω}, e.records = r →
    e.worklist = w → Rounds after e ts { e with records := r', worklist := [] } := by
  induction h with
  | done =>
    rintro e rfl hw
    rw [show ({ e with records := e.records, worklist := [] } : Executor κ υ ω) = e by rw [← hw]]
    exact .refl
  | next h _ ih =>
    rintro e rfl hw
    exact .step hw h (ih rfl rfl)

theorem Macrosteps.rounds {e e' : Executor κ υ ω} {ts : List (Handled κ υ)}
    (h : Macrosteps after e ts e') : Rounds after e ts e' := by
  induction h with
  | rest _ => exact .refl
  | root ht hi hc _ ih =>
    exact (Rounds.silent ht (rounds_of_loop (cascade_iff_loop.mp hc) rfl hi)).trans ih

/-- A microstep of a run, with the rounds before and after it. -/
theorem Rounds.split {t : Handled κ υ} : ∀ {a b : List (Handled κ υ)} {e e' : Executor κ υ ω},
    Rounds after e (a ++ t :: b) e' → ∃ m item rest children r, Rounds after e a m ∧
      m.worklist = item :: rest ∧ handle after m.records item = .ok (r, t, children) ∧
      Rounds after { m with records := r, worklist := children ++ rest } b e' := by
  intro a b e e' h
  generalize hts : a ++ t :: b = ts at h
  induction h generalizing a with
  | refl => simp at hts
  | silent h _ ih =>
    obtain ⟨m, item, rest, children, r, ha, hw, hh, hb⟩ := ih hts
    exact ⟨m, item, rest, children, r, .silent h ha, hw, hh, hb⟩
  | step hw h hr ih =>
    cases a with
    | nil =>
      cases hts
      exact ⟨_, _, _, _, _, .refl, hw, h, hr⟩
    | cons x a =>
      cases hts
      obtain ⟨m, item, rest, children, r, ha, hw', hh, hb⟩ := ih rfl
      exact ⟨m, item, rest, children, r, .step hw h ha, hw', hh, hb⟩

theorem handle_keeps {P : Shape → Prop} (hP : Kept P) {key : κ} {t : Handled κ υ}
    {children : List (Item κ υ)} (h : handle after r item = .ok (r', t, children))
    (hat : r.At key P) : r'.At key P := by
  obtain ⟨r₁, hm, rfl, -, -⟩ := handle_eq_ok.mp h
  have hat₁ : r₁.At key P := microstep_keeps hP hm hat
  exact hat₁

theorem turn_keeps {P : Shape → Prop} (hP : Kept P) {key : κ} {e e' : Executor κ υ ω}
    {o : Option (Outcome κ υ)} (h : e.turn after = .ok (some (e', o)))
    (hat : e.records.At key P) : e'.records.At key P := by
  cases turn_cases h with
  | @step item rest r out q _ hm =>
    have hat₁ : r.At key P := microstep_keeps hP hm hat
    exact hat₁
  | pooled _ _ => exact hat
  | @released item r _ hr =>
    obtain ⟨-, inst, tail, hi, hins⟩ := releaseFrom_spec hr
    obtain ⟨i, hk, hsh⟩ := hat
    by_cases hkey : key = item.key
    · subst hkey
      rw [hi] at hk
      cases hk
      refine ⟨{ inst with deferred := tail }, ?_, hsh⟩
      show r.instances item.key = _
      rw [hins, Function.update_self]
    · refine ⟨i, ?_, hsh⟩
      show r.instances key = _
      rw [hins, Function.update_of_ne hkey, hk]

/-- A round adds no instance. -/
theorem turn_known {key : κ} {e e' : Executor κ υ ω} {o : Option (Outcome κ υ)}
    (h : e.turn after = .ok (some (e', o))) {inst : Instance κ υ ω}
    (hi : e'.records.instances key = some inst) : ∃ inst₀, e.records.instances key = some inst₀ := by
  cases turn_cases h with
  | @step item rest r out q _ hm =>
    by_cases hkey : key = item.key
    · obtain ⟨inst₀, hi₀, -⟩ := microstep_cases hm
      exact ⟨inst₀, hkey ▸ hi₀⟩
    · exact ⟨inst, ((microstep_frame hm).1 key hkey).symm.trans hi⟩
  | pooled _ _ => exact ⟨inst, hi⟩
  | @released item r _ hr =>
    obtain ⟨-, inst₀, tail, hi₀, hins⟩ := releaseFrom_spec hr
    by_cases hkey : key = item.key
    · exact ⟨inst₀, hkey ▸ hi₀⟩
    · have hi' : r.instances key = some inst := hi
      rw [hins, Function.update_of_ne hkey] at hi'
      exact ⟨inst, hi'⟩

theorem Rounds.keeps {P : Shape → Prop} (hP : Kept P) {key : κ} {e e' : Executor κ υ ω}
    {ts : List (Handled κ υ)} (h : Rounds after e ts e') (hat : e.records.At key P) :
    e'.records.At key P := by
  induction h with
  | refl => exact hat
  | silent h _ ih => exact ih (turn_keeps hP h hat)
  | step _ h _ ih => exact ih (handle_keeps hP h hat)

theorem Rounds.known {key : κ} {e e' : Executor κ υ ω} {ts : List (Handled κ υ)}
    (h : Rounds after e ts e') : ∀ {inst : Instance κ υ ω},
    e'.records.instances key = some inst → ∃ inst₀, e.records.instances key = some inst₀ := by
  induction h with
  | refl => exact fun hi => ⟨_, hi⟩
  | silent h _ ih =>
    intro inst hi
    obtain ⟨_, hi₁⟩ := ih hi
    exact turn_known h hi₁
  | step hw h _ ih =>
    intro inst hi
    obtain ⟨_, hi₁⟩ := ih hi
    exact turn_known (turn_of_handle hw h) hi₁

/-! ## Reachable executors -/

section Reachable

variable [Inhabited υ] {charts : Statechart κ υ ω → Prop} {dead : List κ} {e : Executor κ υ ω}

theorem reach_counted (h : Reach charts after dead e) : ∀ key ∉ dead, ∀ inst,
    e.records.instances key = some inst → inst.shape.Counted := by
  have hadd : ∀ {e e' : Executor κ υ ω} {key : κ} {inst : Instance κ υ ω} {dead : List κ},
      e.add key inst = .ok e' → inst.shape.Counted →
      (∀ k ∉ dead, ∀ i, e.records.instances k = some i → i.shape.Counted) →
      ∀ k ∉ dead, ∀ i, e'.records.instances k = some i → i.shape.Counted := by
    intro e e' key inst dead h hc ih k hk i hi
    unfold Executor.add at h
    split at h
    · cases h
    · cases h
      by_cases hkey : k = key
      · subst hkey
        simp only [write_self] at hi
        cases hi
        exact hc
      · simp only [write_other hkey] at hi
        exact ih k hk i hi
  induction h with
  | idle _ => intro key _ inst hi; cases hi
  | outside _ _ ih => exact ih
  | start _ _ _ hs ih =>
    unfold Executor.start at hs
    obtain ⟨e₁, hs₁, h⟩ := bind_eq_ok.mp hs
    cases h
    have hadded := hadd hs₁ (fun _ => le_rfl) ih
    exact hadded
  | restore _ _ _ hs ih =>
    unfold Executor.restore at hs
    split at hs
    · cases hs
    · exact hadd hs (fun _ => le_rfl) ih
  | post _ _ hs ih =>
    unfold Executor.post at hs
    obtain ⟨_, -, hs⟩ := bind_eq_ok.mp hs
    obtain ⟨_, -, hs⟩ := bind_eq_ok.mp hs
    cases hs
    exact ih
  | @forget dead e e' key _ _ hs ih =>
    intro k hk i hi
    unfold Executor.forget at hs
    obtain ⟨_, -, hs⟩ := bind_eq_ok.mp hs
    simp only at hs
    split at hs
    · cases hs
    · split at hs
      · cases hs
      · cases hs
        by_cases hkey : k = key
        · subst hkey
          simp at hi
        · simp only [Function.update_of_ne hkey] at hi
          exact ih k hk i hi
  | @turn dead e e' out h₀ hs ih =>
    intro k hk i hi
    obtain ⟨i₀, hi₀⟩ := turn_known hs hi
    obtain ⟨i', hi', hc⟩ := turn_keeps kept_counted hs ⟨i₀, hi₀, ih k hk i₀ hi₀⟩
    rw [hi] at hi'
    cases hi'
    exact hc
  | raised _ _ hother _ _ ih =>
    intro k hk i hi
    rw [List.mem_append, not_or] at hk
    rw [hother k fun he => hk.1 (by simp [← he])] at hi
    exact ih k hk.2 i hi

/-- **A completion whose state was left since it was queued is discarded.** -/
theorem completion_discarded {e' : Executor κ υ ω} {a b d f : List (Handled κ υ)}
    {t₁ t₂ t₃ : Handled κ υ} {c : Item κ υ} (h : Reach charts after dead e)
    (hm : Macrosteps after e (a ++ t₁ :: (b ++ t₂ :: (d ++ t₃ :: f))) e') (hk : c.key ∉ dead)
    (hc : c ∈ t₁.queued.completions) (ht : t₂.item.key = c.key)
    (hl : c.name ∈ t₂.queued.left) (hi : t₃.item = c) :
    t₃.outcome = outcome c .discarded ∧ t₃.queued.order = [] := by
  obtain ⟨e₁, item₁, rest₁, ch₁, r₁, hr₁, -, hh₁, hb⟩ := hm.rounds.split
  obtain ⟨r₁', hm₁, rfl, -, -⟩ := handle_eq_ok.mp hh₁
  obtain ⟨hkind, hkey, inst₁, hi₁, hserial⟩ := microstep_completion hm₁ hc
  obtain ⟨e₂, item₂, rest₂, ch₂, r₂, hr₂, -, hh₂, hd⟩ := hb.split
  obtain ⟨r₂', hm₂, rfl, hitem₂, -⟩ := handle_eq_ok.mp hh₂
  obtain ⟨e₃, item₃, rest₃, ch₃, r₃, hr₃, -, hh₃, -⟩ := hd.split
  obtain ⟨r₃', hm₃, rfl, hitem₃, -⟩ := handle_eq_ok.mp hh₃
  -- when it is queued, its serial is one that was given out
  have hcounted : inst₁.shape.Counted := by
    obtain ⟨inst₀, hi₀, -⟩ := microstep_cases hm₁
    have h₀ : ∃ i, e.records.instances item₁.key = some i := hr₁.known hi₀
    obtain ⟨i, hi⟩ := h₀
    have hat := hr₁.keeps kept_counted
      ⟨i, hi, reach_counted h _ (hkey ▸ hk) i hi⟩
    obtain ⟨i', hi', hc'⟩ := microstep_keeps kept_counted hm₁ hat
    rw [hi₁] at hi'
    cases hi'
    exact hc'
  have hgiven : Records.At { r₁' with world := after t₁.outcome r₁' } c.key
      fun sh => c.serial ≤ sh.entries :=
    ⟨inst₁, by rw [hkey]; exact hi₁, by rw [hserial]; exact hcounted c.name⟩
  -- when its state is left, the occurrence is over
  have hgiven₂ := hr₂.keeps kept_entries hgiven
  rw [hitem₂] at ht
  have hlost := microstep_left hm₂ (by rw [ht]; exact hgiven₂) hl
  rw [ht] at hlost
  have hlost₃ : e₃.records.At c.key (Lost c.name c.serial) := hr₃.keeps kept_lost hlost
  -- when it is handled, it is discarded
  have hitem : item₃ = c := hitem₃.symm.trans hi
  subst hitem
  rw [microstep_lost hkind hlost₃] at hm₃
  obtain ⟨-, hq⟩ := Prod.mk.inj (Except.ok.inj hm₃)
  obtain ⟨ho, hq⟩ := Prod.mk.inj hq
  exact ⟨ho.symm, by rw [← hq]; rfl⟩

/--
**The order of a macrostep.**

From an empty worklist, `run` ends with the microsteps of the recursive evaluation and with no
others: each item is handled, then each item its actions reported with its whole cascade, then its
continuations, then its completions, before anything queued earlier. And in every such run a
completion whose state was left since it was queued is discarded.
-/
theorem run_order (h : Reach charts after dead e) (hw : e.worklist = []) :
    (∀ e' outs, (∃ n, e.run after n = .ok (some (e', outs))) ↔
      ∃ ts, Macrosteps after e ts e' ∧ outs = ts.map (·.outcome)) ∧
    ∀ e' a b d f t₁ t₂ t₃ c,
      Macrosteps after e (a ++ t₁ :: (b ++ t₂ :: (d ++ t₃ :: f))) e' → c.key ∉ dead →
      c ∈ t₁.queued.completions → t₂.item.key = c.key → c.name ∈ t₂.queued.left → t₃.item = c →
      t₃.outcome.kind = .discarded ∧ t₃.outcome.rows = [] ∧ t₃.queued.order = [] := by
  refine ⟨fun e' outs => run_iff_macrosteps hw, ?_⟩
  intro e' a b d f t₁ t₂ t₃ c hm hk hc ht hl hi
  obtain ⟨ho, hq⟩ := completion_discarded h hm hk hc ht hl hi
  exact ⟨by rw [ho]; rfl, by rw [ho]; rfl, hq⟩

end Reachable

/-- With the initial entry of `lockstep` and one `go` in the pool, a run is what the recursion
does. -/
theorem run_order_lockstep : ∃ e : Executor Nat Unit Unit, e.pool.length = 2 ∧ ∀ e' outs,
    (∃ n, e.run (fun _ r => r.world) n = .ok (some (e', outs))) ↔
      ∃ ts, Macrosteps (fun _ r => r.world) e ts e' ∧ outs = ts.map (·.outcome) := by
  have h₀ : Reach (fun _ : Statechart Nat Unit Unit => True) (fun _ r => r.world) []
      (Executor.idle ()) := .idle ()
  have h₁ := h₀.start rfl trivial (rfl : (Executor.idle ()).start 0 lockstep () = .ok _)
  have h₂ := h₁.post rfl (rfl : Executor.post _ 0 { name := "go", payload := () } = .ok _)
  exact ⟨_, rfl, (run_order h₂ rfl).1⟩

/-- Entering `first` reports an event that leaves it again before its completion is handled. -/
def restless : Statechart Nat Unit Unit where
  name := "restless"
  root := .mk "all" [.mk "only" "first" [.mk "first" [] "poke" "" [] false [] "",
    .mk "second" [] "" "" [] false [] "", .mk "third" [] "" "" [] false [] ""]] "" "" [] false [] ""
  rows := [
    { id := "restless.01", source := "first", event := COMPLETION, target := "second" },
    { id := "restless.02", source := "first", event := "leave", target := "third" }]
  actions := fun name => if name = "poke" then
    some fun ctx world => (some { send := [(ctx.key, { name := "leave", payload := () })] }, world)
    else none
  clock := .logical

/-- What the microsteps of a run came to. -/
def kindsOf
    (found : Except StatechartError (Option (Executor Nat Unit Unit × List (Outcome Nat Unit)))) :
    List (OutcomeKind × List Name) :=
  match found with
  | .ok (some (_, outs)) => outs.map fun out => (out.kind, out.rows)
  | _ => []

example : kindsOf (do
    let e ← (Executor.idle ()).start 0 restless ()
    e.run (fun _ r => r.world) 6) =
    [(.started, []), (.fired, ["restless.02"]), (.discarded, [])] := by
  rfl

end Dsl41.StateMachine
