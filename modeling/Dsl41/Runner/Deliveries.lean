import Dsl41.Runner.FanOut

/-!
# What the feeds deliver

* `publish_spec` — one record offered to every feed of the fan-out
* `Closed` — what a call can do to the writer's state, for the invariants of a run
-/

namespace Dsl41.Runner

open Infra Infra.Json Canon

/-! ## Offering -/

/-- The feed after an offer of the fan-out. -/
def Feed.taken (f : Feed) (o : Offer) : Feed :=
  if f.fits o then f.enqueue o else { f.dropBacklog o with state := .removed }

/-- The feed once its owner is told too. -/
def Feed.handed (f : Feed) (o : Offer) : Feed := if f.fits o then f.taken o else (f.taken o).tellOwner

theorem Feed.post_append {f : Feed} {o : Offer} (h : f.state.open = true) :
    f.post (.append o) = .ok (f.taken o, !f.fits o) := by
  rw [Feed.post, h, Feed.taken]
  cases f.fits o with
  | true => rfl
  | false => rfl

theorem Feed.post_ends {f : Feed} (h : f.state.open = true) :
    f.post .streamEnds = .ok ({ f with state := .closed }, false) := by
  rw [Feed.post, h, if_pos rfl]

namespace FanOut

variable {L : Library} {s t : FanOut L} {i j : Nat} {f f' : Feed} {o : Offer} {α : Type}
  {c : Feed → Except Raised (Feed × α)} {a : α}

theorem onFeed_ok (hf : s.feeds[i]? = some f) (hcall : c f = .ok (f', a)) :
    (onFeed i c).result s = .ok a ∧
      (onFeed i c).after s = { s with feeds := s.feeds.set i f' } := by
  simp only [onFeed, Effect.result_bind, Effect.after_bind, Effect.result_asks, Effect.after_asks, hf,
    Option.elim_some, Effect.result_ofExcept, Effect.after_ofExcept, hcall]
  exact ⟨rfl, rfl⟩

theorem onFeed_error {e : Raised} (h : (onFeed i c).result s = .error e) : (onFeed i c).after s = s := by
  cases hf : s.feeds[i]? with
  | none =>
    simp only [onFeed, Effect.after_bind, Effect.result_asks, Effect.after_asks, hf, Option.elim_none]
  | some f =>
    cases hcall : c f with
    | error e' =>
      simp only [onFeed, Effect.after_bind, Effect.result_asks, Effect.after_asks, hf, Option.elim_some,
        Effect.result_ofExcept, Effect.after_ofExcept, hcall]
    | ok answer =>
      rw [(onFeed_ok hf hcall).1] at h
      cases h

/-- Every call on a feed leaves the state as it was or sets that feed. -/
theorem onFeed_cases (i : Nat) (c : Feed → Except Raised (Feed × α)) (s : FanOut L) :
    (onFeed i c).after s = s ∨ ∃ f f' a, s.feeds[i]? = some f ∧ c f = .ok (f', a) ∧
      (onFeed i c).result s = .ok a ∧ (onFeed i c).after s = { s with feeds := s.feeds.set i f' } := by
  cases hresult : (onFeed i c).result s with
  | error e => exact Or.inl (onFeed_error hresult)
  | ok a =>
    right
    obtain ⟨f, hf, hcall, -⟩ := Effect.bind_result_ok hresult
    rw [Effect.result_asks] at hf
    rw [Effect.after_asks] at hcall
    obtain ⟨answer, hanswer, hcall, -⟩ := Effect.bind_result_ok hcall
    rw [Effect.result_ofExcept] at hanswer
    have hf : s.feeds[i]? = some f := by
      cases hfeed : s.feeds[i]? with
      | none =>
        rw [hfeed] at hf
        cases hf
      | some f' =>
        rw [hfeed] at hf
        cases hf
        rfl
    cases hcall
    exact ⟨f, answer.1, answer.2, hf, hanswer, rfl, (onFeed_ok hf hanswer).2⟩

/-- The feeds of the fan-out are open, each there once. -/
structure Open (s : FanOut L) : Prop where
  nodup : s.subscribers.Nodup
  opened : ∀ i ∈ s.subscribers, ∃ f, s.feeds[i]? = some f ∧ f.state.open = true

/-- Whether the record fits a feed. -/
def fitsAt (s : FanOut L) (o : Offer) (i : Nat) : Bool := (s.feeds[i]?).any fun f => f.fits o

theorem offer_spec (hf : s.feeds[i]? = some f) (hopen : f.state.open = true) :
    (offer i o).result s = .ok (f.fits o) ∧
      (offer i o).after s = { s with feeds := s.feeds.set i (f.taken o) } := by
  obtain ⟨hresult, hafter⟩ := onFeed_ok (c := fun f => f.post (.append o)) hf (Feed.post_append hopen)
  simp only [offer, Effect.result_bind, Effect.after_bind, hresult, hafter]
  exact ⟨by rw [Effect.result_pure, Bool.not_not], rfl⟩

theorem offerAll_spec : ∀ {is : List Nat} {s : FanOut L}, is.Nodup →
    (∀ i ∈ is, ∃ f, s.feeds[i]? = some f ∧ f.state.open = true) →
    (offerAll o is).result s = .ok (is.filter fun i => !s.fitsAt o i) ∧
      (offerAll o is).after s =
        { s with feeds := s.feeds.mapIdx fun i f => if i ∈ is then f.taken o else f }
  | [], s, _, _ => by
    refine ⟨rfl, ?_⟩
    have hsame : (s.feeds.mapIdx fun i f => if i ∈ ([] : List Nat) then f.taken o else f) = s.feeds := by
      refine List.ext_getElem? fun k => ?_
      simp
    rw [hsame]
    rfl
  | i :: is, s, hnodup, hopen => by
    obtain ⟨hi, hnodup⟩ := List.nodup_cons.mp hnodup
    obtain ⟨f, hf, hfopen⟩ := hopen i List.mem_cons_self
    obtain ⟨hresult, hafter⟩ := offer_spec (o := o) hf hfopen
    have hother : ∀ k ∈ is, (s.feeds.set i (f.taken o))[k]? = s.feeds[k]? := by
      intro k hk
      rw [List.getElem?_set_ne]
      rintro rfl
      exact hi hk
    have hopen : ∀ k ∈ is, ∃ f', ({ s with feeds := s.feeds.set i (f.taken o) } : FanOut L).feeds[k]? =
        some f' ∧ f'.state.open = true := by
      intro k hk
      obtain ⟨g, hg, hgopen⟩ := hopen k (List.mem_cons_of_mem _ hk)
      exact ⟨g, (hother k hk).trans hg, hgopen⟩
    obtain ⟨hrest, hlast⟩ := offerAll_spec hnodup hopen
    have hfits : ∀ k ∈ is, fitsAt { s with feeds := s.feeds.set i (f.taken o) } o k = s.fitsAt o k := by
      intro k hk
      simp only [fitsAt, hother k hk]
    have hhere : s.fitsAt o i = f.fits o := by
      rw [fitsAt, hf, Option.any_some]
    constructor
    · simp only [offerAll, Effect.result_bind, hresult, hafter, hrest, Effect.result_pure]
      rw [List.filter_cons, hhere, List.filter_congr fun k hk => congrArg not (hfits k hk)]
      cases f.fits o with
      | true => rfl
      | false => rfl
    · simp only [offerAll, Effect.after_bind, hresult, hafter, hrest, hlast, Effect.after_pure]
      congr 1
      refine List.ext_getElem? fun k => ?_
      rw [List.getElem?_mapIdx, List.getElem?_mapIdx]
      by_cases hk : k = i
      · subst hk
        have hlt : k < s.feeds.length := (List.getElem?_eq_some_iff.mp hf).1
        simp [hi, hf, List.getElem?_set_self hlt]
      · rw [List.getElem?_set_ne (fun heq => hk heq.symm)]
        simp [hk]

theorem foldl_modify {g : Feed → Feed} : ∀ {is : List Nat} {feeds : List Feed} {k : Nat}, is.Nodup →
    (is.foldl (fun feeds i => feeds.modify i g) feeds)[k]? =
      if k ∈ is then feeds[k]?.map g else feeds[k]?
  | [], feeds, k, _ => by simp
  | i :: is, feeds, k, hnodup => by
    obtain ⟨hi, hnodup⟩ := List.nodup_cons.mp hnodup
    rw [List.foldl_cons, foldl_modify hnodup, List.getElem?_modify]
    by_cases hk : k = i
    · subst hk
      simp [hi]
    · have hne : i ≠ k := fun heq => hk heq.symm
      simp [hk, hne]

variable (s o) in
/-- The state after a record was fanned out. -/
def spread : FanOut L :=
  { s with
    subscribers := s.subscribers.filter (s.fitsAt o)
    feeds := s.feeds.mapIdx fun i f => if i ∈ s.subscribers then f.handed o else f
    published := s.published ++ [o] }

theorem spread_feeds (k : Nat) : (s.spread o).feeds[k]? =
    if k ∈ s.subscribers then s.feeds[k]?.map fun f => f.handed o else s.feeds[k]? := by
  rw [spread, List.getElem?_mapIdx]
  split
  · rfl
  · cases s.feeds[k]? with
    | none => rfl
    | some f => rfl

/-- The fan-out never raises, and every feed of it has the record or has left. -/
theorem publish_spec (h : s.Open) : (publish o).result s = .ok () ∧ (publish o).after s = s.spread o := by
  obtain ⟨hresult, hafter⟩ := offerAll_spec (o := o) h.nodup h.opened
  constructor
  · simp only [publish, Effect.result_bind, Effect.result_get, Effect.after_get, hresult]
    rfl
  · simp only [publish, Effect.after_bind, Effect.result_get, Effect.after_get, hresult, hafter,
      Effect.after_modify]
    have herase : (s.subscribers.filter fun i => !s.fitsAt o i).foldl List.erase s.subscribers =
        s.subscribers.filter (s.fitsAt o) := by
      rw [← List.diff_eq_foldl, List.Nodup.sdiff_eq_filter h.nodup]
      refine List.filter_congr fun i hi => ?_
      rw [Bool.eq_iff_iff]
      simp [hi]
    have hfeeds : ((s.subscribers.filter fun i => !s.fitsAt o i).foldl
        (fun feeds i => feeds.modify i Feed.tellOwner)
        (s.feeds.mapIdx fun i f => if i ∈ s.subscribers then f.taken o else f)) =
        s.feeds.mapIdx fun i f => if i ∈ s.subscribers then f.handed o else f := by
      refine List.ext_getElem? fun k => ?_
      rw [foldl_modify (h.nodup.filter _), List.getElem?_mapIdx, List.getElem?_mapIdx]
      cases hk : s.feeds[k]? with
      | none => simp
      | some f =>
        have hfits : s.fitsAt o k = f.fits o := by
          rw [fitsAt, hk, Option.any_some]
        by_cases hmem : k ∈ s.subscribers
        · cases hf : f.fits o with
          | true => simp [hmem, hfits, hf, Feed.handed]
          | false => simp [hmem, hfits, hf, Feed.handed]
        · simp [hmem]
    rw [herase, hfeeds]
    rfl

/-! ## What a call can do -/

/-- The predicate survives what follows a commit: a record is folded in, or fanned out. -/
structure Folds (P : FanOut L → Prop) : Prop where
  opened : ∀ {s}, P s → s.Open
  folds : ∀ {s} (openTable : OpenTable) (position : Position L), P s →
    P { s with journal := { s.journal with openTable, position } }
  spread : ∀ {s} (o : Offer), P s → P (s.spread o)

/-- The predicate survives what the readers and the handlers do: a feed joins or leaves, a reader takes
a record, a handler goes live. -/
structure Handles (P : FanOut L → Prop) : Prop where
  opened : ∀ {s}, P s → s.Open
  joins : ∀ {s} (budget : Int) (owned : Bool), P s → P { s with
    feeds := s.feeds ++ [Feed.subscribe budget owned]
    subscribers := s.subscribers ++ [s.feeds.length] }
  leaves : ∀ {s i f f' left}, P s → i ∈ s.subscribers → s.feeds[i]? = some f →
    f.post .streamEnds = .ok (f', left) →
    P { s with feeds := s.feeds.set i f', subscribers := s.subscribers.erase i }
  takes : ∀ {s i f f' record}, P s → s.feeds[i]? = some f → f.get = .ok (f', record) →
    P { s with feeds := s.feeds.set i f' }
  goesLive : ∀ {s i f f' left}, P s → s.feeds[i]? = some f → f.post .backfillSent = .ok (f', left) →
    P { s with feeds := s.feeds.set i f' }

/-- The predicate survives whatever a call can do. -/
structure Closed (P : FanOut L → Prop) : Prop extends Folds P, Handles P where
  writes : ∀ {s} (store : MemoryStore) (last_seq : Int), P s →
    P { s with journal := { s.journal with store }, last_seq }

theorem unsubscribe_spec (hi : i ∈ s.subscribers) (hf : s.feeds[i]? = some f)
    (hopen : f.state.open = true) : (unsubscribe i).result s = .ok () ∧ (unsubscribe i).after s =
      { s with feeds := s.feeds.set i { f with state := .closed }
               subscribers := s.subscribers.erase i } := by
  obtain ⟨hreturned, hleft⟩ := onFeed_ok (s := { s with subscribers := s.subscribers.erase i })
    (c := fun f => f.post .streamEnds) hf (Feed.post_ends hopen)
  constructor
  · simp only [unsubscribe, Effect.result_bind, Effect.result_get, Effect.after_get, if_pos hi,
      Effect.result_modify, Effect.after_modify, hreturned]
    rfl
  · simp only [unsubscribe, Effect.after_bind, Effect.result_get, Effect.after_get, if_pos hi,
      Effect.result_modify, Effect.after_modify, hreturned, hleft]
    rfl

theorem unsubscribe_none (hi : i ∉ s.subscribers) : (unsubscribe i).result s = .ok () ∧
    (unsubscribe i).after s = s := by
  constructor
  · simp only [unsubscribe, Effect.result_bind, Effect.result_get, Effect.after_get, if_neg hi]
    rfl
  · simp only [unsubscribe, Effect.after_bind, Effect.result_get, Effect.after_get, if_neg hi]
    rfl

section Keeps

variable {P : FanOut L → Prop} {lineSize : Value → Nat}

theorem Folds.publish (h : Folds P) (o : Offer) : Effect.Keeps P (publish o) := by
  intro s hs
  rw [(publish_spec (h.opened hs)).2]
  exact h.spread o hs

theorem keeps_reads {β : Type} (reading : Journal L → Except Error β) : Effect.Keeps P (reads reading) :=
  fun _ hs => hs

theorem Folds.note (h : Folds P) (e : Int × Record) : Effect.Keeps P (note lineSize e) := by
  refine (keeps_reads _).bind fun openTable => ?_
  refine (Effect.keeps_modify fun s hs => h.folds _ s.journal.position hs).bind fun _ => ?_
  refine (keeps_reads _).bind fun position => ?_
  refine (Effect.keeps_modify fun s hs => h.folds s.journal.openTable _ hs).bind fun _ => ?_
  refine (keeps_reads _).bind fun wire => (keeps_reads _).bind fun _ => ?_
  cases wire with
  | none => exact Effect.keeps_pure ()
  | some record => exact h.publish _

theorem Folds.notes (h : Folds P) : ∀ es : List (Int × Record), Effect.Keeps P (notes lineSize es)
  | [] => Effect.keeps_pure ()
  | e :: es => (h.note e).bind fun _ => h.notes es

/-- The calls of the writer. -/
def Call.writes : Call → Bool
  | .append _ _ | .publish _ => true
  | .subscribe _ _ | .unsubscribe _ | .get _ | .goLive _ => false

theorem Handles.unsubscribe (h : Handles P) (i : Nat) : Effect.Keeps P (unsubscribe i) := by
  intro s hs
  by_cases hi : i ∈ s.subscribers
  · obtain ⟨f, hf, hopen⟩ := (h.opened hs).opened i hi
    rw [(unsubscribe_spec hi hf hopen).2]
    exact h.leaves hs hi hf (Feed.post_ends hopen)
  · rw [(unsubscribe_none hi).2]
    exact hs

theorem Handles.step (h : Handles P) : ∀ {call : Call}, call.writes = false →
    Effect.Keeps P (step lineSize call)
  | .subscribe budget owned, _ => fun _ hs => h.joins budget owned hs
  | .unsubscribe i, _ => h.unsubscribe i
  | .get i, _ => by
    refine Effect.Keeps.bind (fun s hs => ?_) fun _ => Effect.keeps_pure ()
    obtain heq | ⟨f, f', record, hf, hget, -, heq⟩ := onFeed_cases i Feed.get s
    · exact heq.symm ▸ hs
    · exact heq.symm ▸ h.takes hs hf hget
  | .goLive i, _ => by
    refine Effect.Keeps.bind (fun s hs => ?_) fun _ => Effect.keeps_pure ()
    obtain heq | ⟨f, f', left, hf, hpost, -, heq⟩ := onFeed_cases i (fun f => f.post .backfillSent) s
    · exact heq.symm ▸ hs
    · exact heq.symm ▸ h.goesLive hs hf hpost

namespace Closed

theorem append (h : Closed P) (proof : Except Error Unit) (records : List Record) :
    Effect.Keeps P (append lineSize proof records) := by
  refine (keeps_reads _).bind fun _ => (keeps_reads _).bind fun _ => ?_
  refine Effect.Keeps.bind (fun s hs => h.writes _ s.last_seq hs) fun last => ?_
  refine (Effect.keeps_modify fun s hs => h.writes s.journal.store last hs).bind fun _ => ?_
  exact (h.notes _).bind fun _ => Effect.keeps_pure last

/-- No call leaves what the predicate holds of. -/
theorem step (h : Closed P) : ∀ call : Call, Effect.Keeps P (step lineSize call)
  | .append proof records => (h.append proof records).bind fun _ => Effect.keeps_pure ()
  | .publish o => h.publish o
  | .subscribe _ _ | .unsubscribe _ | .get _ | .goLive _ => h.toHandles.step rfl

/-- Nor does a run. -/
theorem run (h : Closed P) : ∀ {calls : List Call} {s : FanOut L}, P s → P (s.run lineSize calls)
  | [], _, hs => hs
  | call :: calls, s, hs => by
    have hnext : P ((FanOut.step lineSize call).after s) := h.step call s hs
    show P (FanOut.run lineSize ((FanOut.step lineSize call).after s) calls)
    exact h.run hnext

end Closed

end Keeps

/-! ## The invariants -/

theorem Open.set (h : s.Open) (hf : s.feeds[i]? = some f) (hopen : f'.state.open = f.state.open) :
    Open { s with feeds := s.feeds.set i f' } where
  nodup := h.nodup
  opened k hk := by
    obtain ⟨g, hg, hgopen⟩ := h.opened k hk
    by_cases hik : i = k
    · subst hik
      rw [hf] at hg
      cases hg
      have hlt : i < s.feeds.length := (List.getElem?_eq_some_iff.mp hf).1
      exact ⟨f', List.getElem?_set_self hlt, hopen.trans hgopen⟩
    · exact ⟨g, (List.getElem?_set_ne hik).trans hg, hgopen⟩

theorem Open.lt (h : s.Open) (hi : i ∈ s.subscribers) : i < s.feeds.length := by
  obtain ⟨f, hf, -⟩ := h.opened i hi
  exact (List.getElem?_eq_some_iff.mp hf).1

theorem get_state {record : Value} (hget : f.get = .ok (f', record)) : f'.state = f.state := by
  unfold Feed.get at hget
  split at hget
  · cases hget
  · cases hget
    rfl

theorem goLive_open {left : Bool} (hpost : f.post .backfillSent = .ok (f', left)) :
    f'.state.open = f.state.open := by
  simp only [Feed.post] at hpost
  split at hpost
  · next hstate =>
    cases hpost
    rw [hstate]
    rfl
  all_goals cases hpost

theorem taken_open (hopen : f.state.open = true) : (f.handed o).state.open = f.fits o := by
  rw [Feed.handed, Feed.taken]
  cases f.fits o with
  | true => exact hopen
  | false =>
    rw [if_neg Bool.false_ne_true, if_neg Bool.false_ne_true, Feed.tellOwner_eq]
    rfl

theorem closed_open : Closed (Open (L := L)) where
  opened h := h
  folds _ _ h := ⟨h.nodup, h.opened⟩
  writes _ _ h := ⟨h.nodup, h.opened⟩
  spread o h := by
    refine ⟨h.nodup.filter _, fun k hk => ?_⟩
    obtain ⟨hk, hfits⟩ := List.mem_filter.mp hk
    obtain ⟨f, hf, hopen⟩ := h.opened k hk
    rw [fitsAt, hf, Option.any_some] at hfits
    refine ⟨f.handed o, ?_, (taken_open hopen).trans hfits⟩
    rw [spread_feeds, if_pos hk, hf, Option.map_some]
  joins {s} budget owned h := by
    refine ⟨List.nodup_append'.mpr ⟨h.nodup, List.nodup_singleton _, ?_⟩, fun k hk => ?_⟩
    · rintro k hk hnew
      have hlt := h.lt hk
      rw [List.mem_singleton.mp hnew] at hlt
      exact Nat.lt_irrefl _ hlt
    · rcases List.mem_append.mp hk with hk | hk
      · obtain ⟨f, hf, hopen⟩ := h.opened k hk
        exact ⟨f, (List.getElem?_append_left (h.lt hk)).trans hf, hopen⟩
      · rw [List.mem_singleton.mp hk]
        exact ⟨Feed.subscribe budget owned, List.getElem?_concat_length, rfl⟩
  leaves {s i f f' left} h hi hf hpost := by
    refine ⟨h.nodup.erase i, fun k hk => ?_⟩
    obtain ⟨hne, hk⟩ := (h.nodup.mem_erase_iff).mp hk
    obtain ⟨g, hg, hgopen⟩ := h.opened k hk
    exact ⟨g, (List.getElem?_set_ne fun heq => hne heq.symm).trans hg, hgopen⟩
  takes h hf hget := h.set hf (by rw [get_state hget])
  goesLive h hf hpost := h.set hf (goLive_open hpost)

/-- Every feed's backlog is counted and bounded. -/
def AllBounded (s : FanOut L) : Prop := ∀ (k : Nat) (f : Feed), s.feeds[k]? = some f → f.Bounded

theorem AllBounded.set (h : s.AllBounded) (hf' : f'.Bounded) :
    AllBounded { s with feeds := s.feeds.set i f' } := by
  intro k g hg
  by_cases hik : i = k
  · subst hik
    have hg : (s.feeds.set i f')[i]? = some g := hg
    have hlt : i < s.feeds.length := by simpa using (List.getElem?_eq_some_iff.mp hg).1
    rw [List.getElem?_set_self hlt] at hg
    cases hg
    exact hf'
  · exact h k g ((List.getElem?_set_ne hik).symm.trans hg)

theorem handed_bounded (h : f.Bounded) (hopen : f.state.open = true) : (f.handed o).Bounded := by
  have htaken : (f.taken o).Bounded := h.post (Feed.post_append hopen)
  rw [Feed.handed]
  split
  · exact htaken
  · exact htaken.tellOwner

theorem closed_bounded : Closed fun s : FanOut L => s.Open ∧ s.AllBounded where
  opened h := h.1
  folds openTable position h := ⟨closed_open.folds openTable position h.1, h.2⟩
  writes store last_seq h := ⟨closed_open.writes store last_seq h.1, h.2⟩
  spread o h := by
    refine ⟨closed_open.spread o h.1, fun k g hg => ?_⟩
    rw [spread_feeds] at hg
    split at hg
    · next hk =>
      obtain ⟨f, hf, hopen⟩ := h.1.opened k hk
      rw [hf] at hg
      cases hg
      exact handed_bounded (h.2 k f hf) hopen
    · exact h.2 k g hg
  joins {s} budget owned h := by
    refine ⟨closed_open.joins budget owned h.1, fun k g hg => ?_⟩
    by_cases hlt : k < s.feeds.length
    · exact h.2 k g ((List.getElem?_append_left hlt).symm.trans hg)
    · have hmem := List.mem_of_getElem? ((List.getElem?_append_right (Nat.le_of_not_lt hlt)).symm.trans hg)
      rw [List.mem_singleton.mp hmem]
      exact Feed.bounded_subscribe budget owned
  leaves h hi hf hpost := ⟨closed_open.leaves h.1 hi hf hpost, AllBounded.set h.2 ((h.2 _ _ hf).post hpost)⟩
  takes h hf hget := ⟨closed_open.takes h.1 hf hget, AllBounded.set h.2 ((h.2 _ _ hf).get hget)⟩
  goesLive h hf hpost := ⟨closed_open.goesLive h.1 hf hpost, AllBounded.set h.2 ((h.2 _ _ hf).post hpost)⟩

/-- A feed that joined when `before` had been fanned out is owed what came after, and is in the
fan-out while it is open. -/
structure Joined (i : Nat) (before : List Offer) (s : FanOut L) : Prop where
  opened : s.Open
  owed : ∃ since f, s.published = before ++ since ∧ s.feeds[i]? = some f ∧
    f.Owes (since.map Offer.record) ∧ (i ∈ s.subscribers ↔ f.state.open = true)

variable {before : List Offer}

theorem handed_owes {offered : List Value} (h : f.Owes offered) (hopen : f.state.open = true) :
    (f.handed o).Owes (offered ++ [o.record]) := by
  have htaken : (f.taken o).Owes (offered ++ [o.record]) := (h.append (Feed.post_append hopen)).1
  rw [Feed.handed]
  split
  · exact htaken
  · exact htaken.tellOwner

/-- A change of a feed that leaves it what it owes. -/
theorem Joined.set {k : Nat} (h : Joined i before s) (hf : s.feeds[k]? = some f)
    (howes : ∀ offered, f.Owes offered → f'.Owes offered) (hopen : f'.state.open = f.state.open) :
    Joined i before { s with feeds := s.feeds.set k f' } where
  opened := h.opened.set hf hopen
  owed := by
    obtain ⟨since, g, hpublished, hg, hgowes, hin⟩ := h.owed
    by_cases hki : k = i
    · subst hki
      rw [hf] at hg
      cases hg
      have hlt : k < s.feeds.length := (List.getElem?_eq_some_iff.mp hf).1
      exact ⟨since, f', hpublished, List.getElem?_set_self hlt, howes _ hgowes, by rw [hopen]; exact hin⟩
    · exact ⟨since, g, hpublished, (List.getElem?_set_ne hki).trans hg, hgowes, hin⟩

theorem closed_joined (i : Nat) (before : List Offer) : Closed (Joined (L := L) i before) where
  opened h := h.opened
  folds openTable position h := ⟨closed_open.folds openTable position h.opened, h.owed⟩
  writes store last_seq h := ⟨closed_open.writes store last_seq h.opened, h.owed⟩
  spread {s} o h := by
    refine ⟨closed_open.spread o h.opened, ?_⟩
    obtain ⟨since, f, hpublished, hf, howes, hin⟩ := h.owed
    have hall : (s.spread o).published = before ++ (since ++ [o]) := by
      rw [spread, hpublished, List.append_assoc]
    have hsub : i ∈ (s.spread o).subscribers ↔ i ∈ s.subscribers ∧ f.fits o = true := by
      rw [spread, List.mem_filter, fitsAt, hf, Option.any_some]
    by_cases hi : i ∈ s.subscribers
    · have hopen := hin.mp hi
      refine ⟨since ++ [o], f.handed o, hall, ?_, ?_, ?_⟩
      · rw [spread_feeds, if_pos hi, hf, Option.map_some]
      · rw [List.map_append]
        exact handed_owes howes hopen
      · rw [hsub, taken_open hopen]
        exact ⟨fun h => h.2, fun h => ⟨hi, h⟩⟩
    · have hnot : f.state.open = false := Bool.eq_false_iff.mpr fun hopen => hi (hin.mpr hopen)
      refine ⟨since ++ [o], f, hall, ?_, ?_, ?_⟩
      · rw [spread_feeds, if_neg hi, hf]
      · rw [List.map_append]
        exact howes.missed hnot _
      · rw [hsub]
        exact ⟨fun h => absurd h.1 hi, fun hopen => absurd (hin.mpr hopen) hi⟩
  joins {s} budget owned h := by
    refine ⟨closed_open.joins budget owned h.opened, ?_⟩
    obtain ⟨since, f, hpublished, hf, howes, hin⟩ := h.owed
    have hlt : i < s.feeds.length := (List.getElem?_eq_some_iff.mp hf).1
    refine ⟨since, f, hpublished, (List.getElem?_append_left hlt).trans hf, howes, ?_⟩
    rw [List.mem_append, List.mem_singleton, hin]
    exact or_iff_left (Nat.ne_of_lt hlt)
  leaves {s k f f' left} h hk hf hpost := by
    refine ⟨closed_open.leaves h.opened hk hf hpost, ?_⟩
    obtain ⟨since, g, hpublished, hg, hgowes, hin⟩ := h.owed
    by_cases hki : k = i
    · subst hki
      rw [hf] at hg
      cases hg
      have hlt : k < s.feeds.length := (List.getElem?_eq_some_iff.mp hf).1
      have hclosed : f'.state.open = false := by
        rw [Feed.post] at hpost
        split at hpost
        · cases hpost
          rfl
        · cases hpost
      refine ⟨since, f', hpublished, List.getElem?_set_self hlt, hgowes.post (fun _ heq => by cases heq) hpost, ?_⟩
      rw [hclosed]
      exact ⟨fun hmem => absurd hmem h.opened.nodup.not_mem_erase, fun h => by cases h⟩
    · refine ⟨since, g, hpublished, (List.getElem?_set_ne hki).trans hg, hgowes, ?_⟩
      rw [List.mem_erase_of_ne fun heq => hki heq.symm]
      exact hin
  takes h hf hget := h.set hf (fun _ howes => howes.get hget) (by rw [get_state hget])
  goesLive h hf hpost := h.set hf (fun _ howes => howes.post (fun _ heq => by cases heq) hpost) (goLive_open hpost)

end FanOut

end Dsl41.Runner
