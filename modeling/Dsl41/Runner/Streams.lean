import Dsl41.Runner.Deliveries
import Mathlib.Data.List.ReduceOption

/-!
# What a subscriber is sent

A feed's backlog, what it delivers and what its owner is told are those it would have alone in the
fan-out. The rows a backfill reads up to the seam and the records its feed is owed past it are
the store's rows after the cursor, each once.

* `run_alone` — no feed has a part in what another holds
* `run_commits` — the rows written past the seam are those whose records were fanned out
* `feeds_serve` — all of it, for every run
-/

namespace Dsl41.Runner

open Infra Infra.Json Canon

namespace FanOut

variable {L : Library} {lineSize : Value → Nat} {s t u v : FanOut L} {i : Nat} {f : Feed}

/-! ## One feed alone -/

/-- The fan-out without the other feeds. -/
def only (i : Nat) (s : FanOut L) : FanOut L :=
  { s with subscribers := s.subscribers.filter fun k => decide (k = i) }

/-- The writer's calls and those on the feed itself. -/
def Call.concerns (i : Nat) : Call → Bool
  | .append _ _ | .publish _ => true
  | .subscribe _ _ => false
  | .unsubscribe k | .get k | .goLive k => k = i

/-- The two states differ at most in the other feeds. -/
structure Alike (i : Nat) (s t : FanOut L) : Prop where
  journal : s.journal = t.journal
  last_seq : s.last_seq = t.last_seq
  feed : s.feeds[i]? = t.feeds[i]?
  held : i < s.feeds.length
  joined : i ∈ s.subscribers ↔ i ∈ t.subscribers
  left : s.Open
  right : t.Open

theorem alike_only (h : s.Open) (hi : i < s.feeds.length) : Alike i s (s.only i) where
  journal := rfl
  last_seq := rfl
  feed := rfl
  held := hi
  joined := by
    rw [only, List.mem_filter]
    simp
  left := h
  right := ⟨h.nodup.filter _, fun k hk => h.opened k (List.mem_filter.mp hk).1⟩

theorem Alike.spread (h : Alike i s t) (o : Offer) : Alike i (s.spread o) (t.spread o) where
  journal := h.journal
  last_seq := h.last_seq
  feed := by simp only [spread_feeds, h.feed, h.joined]
  held := by
    simp only [FanOut.spread, List.length_mapIdx]
    exact h.held
  joined := by simp only [FanOut.spread, List.mem_filter, fitsAt, h.feed, h.joined]
  left := closed_open.spread o h.left
  right := closed_open.spread o h.right

theorem couples_publish (o : Offer) : Effect.Couples (Alike (L := L) i) (publish o) (publish o) := by
  intro s t h
  obtain ⟨hs, hs'⟩ := publish_spec (o := o) h.left
  obtain ⟨ht, ht'⟩ := publish_spec (o := o) h.right
  rw [hs, ht, hs', ht']
  exact ⟨rfl, h.spread o⟩

theorem couples_reads {β : Type} (reading : Journal L → Except Error β) :
    Effect.Couples (Alike i) (reads reading) (reads reading) :=
  Effect.couples_asks fun s t h => by rw [h.journal]

theorem couples_writes (g : Journal L → Journal L) : Effect.Couples (Alike i)
    (modify fun s => { s with journal := g s.journal } : Effect Raised (FanOut L) PUnit)
    (modify fun s => { s with journal := g s.journal }) :=
  Effect.couples_modify fun s t h => ⟨by rw [h.journal], h.last_seq, h.feed, h.held, h.joined,
    ⟨h.left.nodup, h.left.opened⟩, ⟨h.right.nodup, h.right.opened⟩⟩

theorem couples_note (e : Int × Record) :
    Effect.Couples (Alike (L := L) i) (note lineSize e) (note lineSize e) := by
  refine (couples_reads _).bind fun openTable =>
    (couples_writes fun j => { j with openTable }).bind fun _ => ?_
  refine (couples_reads _).bind fun position =>
    (couples_writes fun j => { j with position }).bind fun _ => ?_
  refine (couples_reads _).bind fun wire => (couples_reads _).bind fun _ => ?_
  cases wire with
  | none => exact Effect.couples_pure ()
  | some record => exact couples_publish _

theorem couples_notes : ∀ es : List (Int × Record),
    Effect.Couples (Alike (L := L) i) (notes lineSize es) (notes lineSize es)
  | [] => Effect.couples_pure ()
  | e :: es => (couples_note e).bind fun _ => couples_notes es

theorem couples_append (proof : Except Error Unit) (records : List Record) :
    Effect.Couples (Alike (L := L) i) (append lineSize proof records) (append lineSize proof records) := by
  refine (couples_reads _).bind fun _ => (couples_reads _).bind fun _ => ?_
  have hstore : Effect.Couples (Alike (L := L) i) (onStore (MemoryStore.append records))
      (onStore (MemoryStore.append records)) := by
    intro s t h
    rw [result_onStore, result_onStore, after_onStore, after_onStore, h.journal]
    exact ⟨rfl, rfl, h.last_seq, h.feed, h.held, h.joined,
      ⟨h.left.nodup, h.left.opened⟩, ⟨h.right.nodup, h.right.opened⟩⟩
  refine hstore.bind fun last => ?_
  refine Effect.Couples.bind (Effect.couples_modify fun s t h => ?_) fun _ =>
    (couples_notes _).bind fun _ => Effect.couples_pure last
  exact ⟨h.journal, rfl, h.feed, h.held, h.joined,
    ⟨h.left.nodup, h.left.opened⟩, ⟨h.right.nodup, h.right.opened⟩⟩

theorem Alike.set (h : Alike i s t) (hf : s.feeds[i]? = some f) {f' : Feed}
    (hopen : f'.state.open = f.state.open) :
    Alike i { s with feeds := s.feeds.set i f' } { t with feeds := t.feeds.set i f' } where
  journal := h.journal
  last_seq := h.last_seq
  feed := by
    have hlt : i < t.feeds.length := (List.getElem?_eq_some_iff.mp (h.feed.symm.trans hf)).1
    exact (List.getElem?_set_self h.held).trans (List.getElem?_set_self hlt).symm
  held := by
    simp only [List.length_set]
    exact h.held
  joined := h.joined
  left := h.left.set hf hopen
  right := h.right.set (h.feed.symm.trans hf) hopen

theorem couples_onFeed {α : Type} {c : Feed → Except Raised (Feed × α)}
    (hc : ∀ {f f' a}, c f = .ok (f', a) → f'.state.open = f.state.open) :
    Effect.Couples (Alike (L := L) i) (onFeed i c) (onFeed i c) := by
  intro s t h
  obtain ⟨f, hf⟩ : ∃ f, s.feeds[i]? = some f := ⟨_, List.getElem?_eq_getElem h.held⟩
  have hf' : t.feeds[i]? = some f := h.feed.symm.trans hf
  cases hcall : c f with
  | ok answer =>
    obtain ⟨f', a⟩ := answer
    obtain ⟨hs, hs'⟩ := onFeed_ok hf hcall
    obtain ⟨ht, ht'⟩ := onFeed_ok hf' hcall
    rw [hs, ht, hs', ht']
    exact ⟨rfl, h.set hf (hc hcall)⟩
  | error e =>
    simp only [onFeed, Effect.result_bind, Effect.after_bind, Effect.result_asks, Effect.after_asks, hf, hf',
      Option.elim_some, Effect.result_ofExcept, Effect.after_ofExcept, hcall]
    exact ⟨trivial, h⟩

theorem couples_unsubscribe : Effect.Couples (Alike (L := L) i) (unsubscribe i) (unsubscribe i) := by
  intro s t h
  by_cases hi : i ∈ s.subscribers
  · obtain ⟨f, hf, hopen⟩ := h.left.opened i hi
    have hi' := h.joined.mp hi
    have hf' := h.feed.symm.trans hf
    obtain ⟨hs, hs'⟩ := unsubscribe_spec hi hf hopen
    obtain ⟨ht, ht'⟩ := unsubscribe_spec hi' hf' hopen
    have hlt : i < t.feeds.length := (List.getElem?_eq_some_iff.mp hf').1
    rw [hs, ht, hs', ht']
    refine ⟨rfl, h.journal, h.last_seq, ?_, ?_, ?_, ?_, ?_⟩
    · exact (List.getElem?_set_self h.held).trans (List.getElem?_set_self hlt).symm
    · simp only [List.length_set]
      exact h.held
    · exact iff_of_false h.left.nodup.not_mem_erase h.right.nodup.not_mem_erase
    · exact closed_open.leaves h.left hi hf (Feed.post_ends hopen)
    · exact closed_open.leaves h.right hi' hf' (Feed.post_ends hopen)
  · obtain ⟨hs, hs'⟩ := unsubscribe_none hi
    obtain ⟨ht, ht'⟩ := unsubscribe_none fun hi' => hi (h.joined.mpr hi')
    rw [hs, ht, hs', ht']
    exact ⟨rfl, h⟩

/-- A call that concerns the feed does the same in both. -/
theorem couples_step : ∀ {call : Call}, call.concerns i = true →
    Effect.Couples (Alike (L := L) i) (step lineSize call) (step lineSize call)
  | .append proof records, _ => (couples_append proof records).bind fun _ => Effect.couples_pure ()
  | .publish o, _ => couples_publish o
  | .unsubscribe k, h => by
    rw [of_decide_eq_true h]
    exact couples_unsubscribe
  | .get k, h => by
    rw [of_decide_eq_true h]
    exact (couples_onFeed fun hget => by rw [get_state hget]).bind fun _ => Effect.couples_pure ()
  | .goLive k, h => by
    rw [of_decide_eq_true h]
    exact (couples_onFeed fun hpost => goLive_open hpost).bind fun _ => Effect.couples_pure ()

theorem onFeed_others {α : Type} {k : Nat} {c : Feed → Except Raised (Feed × α)} (hk : k ≠ i)
    (hc : ∀ {f f' a}, c f = .ok (f', a) → f'.state.open = f.state.open) (h : Alike i s t) :
    Alike i ((onFeed k c).after s) t := by
  obtain heq | ⟨f, f', a, hf, hcall, -, heq⟩ := onFeed_cases k c s
  · exact heq.symm ▸ h
  · rw [heq]
    refine ⟨h.journal, h.last_seq, (List.getElem?_set_ne hk).trans h.feed, ?_, h.joined,
      h.left.set hf (hc hcall), h.right⟩
    rw [List.length_set]
    exact h.held

/-- A call on the others leaves what the feed has. -/
theorem step_others : ∀ {call : Call}, call.concerns i = false → Alike i s t →
    Alike i ((step lineSize call).after s) t
  | .subscribe budget owned, _, h => by
    refine ⟨h.journal, h.last_seq, (List.getElem?_append_left h.held).trans h.feed, ?_, ?_,
      closed_open.joins budget owned h.left, h.right⟩
    · show i < (s.feeds ++ [Feed.subscribe budget owned]).length
      rw [List.length_append]
      exact Nat.lt_add_right _ h.held
    · show i ∈ s.subscribers ++ [s.feeds.length] ↔ i ∈ t.subscribers
      rw [List.mem_append, List.mem_singleton, h.joined]
      exact or_iff_left (Nat.ne_of_lt h.held)
  | .unsubscribe k, hk, h => by
    have hk : k ≠ i := of_decide_eq_false hk
    by_cases hin : k ∈ s.subscribers
    · obtain ⟨f, hf, hopen⟩ := h.left.opened k hin
      show Alike i ((unsubscribe k).after s) t
      rw [(unsubscribe_spec hin hf hopen).2]
      refine ⟨h.journal, h.last_seq, (List.getElem?_set_ne hk).trans h.feed, ?_, ?_,
        closed_open.leaves h.left hin hf (Feed.post_ends hopen), h.right⟩
      · rw [List.length_set]
        exact h.held
      · rw [List.mem_erase_of_ne hk.symm]
        exact h.joined
    · show Alike i ((unsubscribe k).after s) t
      rw [(unsubscribe_none hin).2]
      exact h
  | .get k, hk, h => by
    have hothers := onFeed_others (of_decide_eq_false hk) (fun hget => by rw [get_state hget]) h
    rw [step, Effect.after_bind_pure]
    exact hothers
  | .goLive k, hk, h => by
    have hothers := onFeed_others (of_decide_eq_false hk) (fun hpost => goLive_open hpost) h
    rw [step, goLive, Effect.after_bind_pure]
    exact hothers

/-- What a feed holds after a run is what it would hold alone in the fan-out. -/
theorem Alike.run (h : Alike i s t) (calls : List Call) :
    Alike i (s.run lineSize calls) (t.run lineSize (calls.filter (Call.concerns i))) := by
  induction calls generalizing s t with
  | nil => exact h
  | cons call calls ih =>
    cases hconcerns : call.concerns i with
    | true =>
      rw [List.filter_cons_of_pos hconcerns]
      exact ih (couples_step hconcerns s t h).2
    | false =>
      rw [List.filter_cons_of_neg (by rw [hconcerns]; exact Bool.false_ne_true)]
      exact ih (step_others hconcerns h)

theorem run_alone (h : s.Open) (hi : i < s.feeds.length) (calls : List Call) :
    (s.run lineSize calls).feeds[i]? =
      ((s.only i).run lineSize (calls.filter (Call.concerns i))).feeds[i]? :=
  ((alike_only h hi).run calls).feed

/-! ## The seam -/

section Seam

variable {records records' : List Record} {j : Journal L} {n : Int} {p : List Offer} {st : MemoryStore}

theorem rowsFrom_append {first : Int} {rows rows' : List Encoded} :
    rowsFrom first (rows ++ rows') = rowsFrom first rows ++ rowsFrom (first + rows.length) rows' := by
  induction rows generalizing first with
  | nil => simp [rowsFrom]
  | cons row rows ih =>
    have hnext : first + 1 + rows.length = first + ((rows.length + 1 : Nat) : Int) := by
      push_cast
      omega
    rw [List.cons_append, rowsFrom, rowsFrom, ih, List.length_cons, hnext, List.cons_append]

theorem rows_foldl_push (rows : List Encoded) (m : MemoryStore) :
    (rows.foldl MemoryStore.push m).rows = m.rows ++ rowsFrom (m.lastSeq + 1) rows := by
  induction rows generalizing m with
  | nil => simp [rowsFrom]
  | cons row rows ih =>
    have hseq : m.lastSeq + 1 = m.next_seq := by
      rw [MemoryStore.lastSeq]
      omega
    have hnext : (m.push row).lastSeq = m.lastSeq + 1 := m.lastSeq_foldl_push [row]
    rw [List.foldl_cons, ih, hnext, rowsFrom, MemoryStore.push, hseq, List.append_assoc,
      List.singleton_append]

/-- The records are written in this order after what `s` holds, and those the wire carries were fanned
out in it. -/
structure Commits (s u : FanOut L) (records : List Record) : Prop where
  stored : ∃ encoded, records.mapM encode = .ok encoded ∧
    u.journal.store.rows = s.journal.store.rows ++ rowsFrom (s.journal.store.lastSeq + 1) encoded
  last : u.journal.store.lastSeq = s.journal.store.lastSeq + records.length
  published : ∃ wires, records.mapM (wireRecord L) = .ok wires ∧
    u.published.map Offer.record = s.published.map Offer.record ++ wires.reduceOption

theorem Commits.refl (hstore : u.journal.store = s.journal.store) (hp : u.published = s.published) :
    Commits s u [] where
  stored := ⟨[], rfl, by rw [hstore, rowsFrom, List.append_nil]⟩
  last := by
    rw [hstore]
    simp
  published := ⟨[], rfl, by rw [hp, List.reduceOption_nil, List.append_nil]⟩

theorem Commits.trans (h : Commits s t records) (h' : Commits t u records') :
    Commits s u (records ++ records') where
  stored := by
    obtain ⟨encoded, hencoded, hrows⟩ := h.stored
    obtain ⟨encoded', hencoded', hrows'⟩ := h'.stored
    refine ⟨encoded ++ encoded', ?_, ?_⟩
    · rw [List.mapM_append, hencoded, hencoded']
      rfl
    · have hlength : (records.length : Int) = encoded.length := by
        rw [(mapM_inv hencoded).length_eq]
      have hnext : s.journal.store.lastSeq + records.length + 1 =
          s.journal.store.lastSeq + 1 + encoded.length := by omega
      rw [hrows', hrows, h.last, rowsFrom_append, hnext, List.append_assoc]
  last := by
    rw [h'.last, h.last, List.length_append]
    push_cast
    omega
  published := by
    obtain ⟨wires, hwires, hpublished⟩ := h.published
    obtain ⟨wires', hwires', hpublished'⟩ := h'.published
    refine ⟨wires ++ wires', ?_, ?_⟩
    · rw [List.mapM_append, hwires, hwires']
      rfl
    · rw [hpublished', hpublished, List.append_assoc, List.reduceOption_append]

theorem folds_store (st : MemoryStore) (n : Int) : Folds fun s : FanOut L =>
    s.Open ∧ s.journal.store = st ∧ s.last_seq = n where
  opened h := h.1
  folds openTable position h := ⟨closed_open.folds openTable position h.1, h.2⟩
  spread o h := ⟨closed_open.spread o h.1, h.2⟩

theorem handles_quiet (j : Journal L) (n : Int) (p : List Offer) : Handles fun s : FanOut L =>
    s.Open ∧ s.journal = j ∧ s.last_seq = n ∧ s.published = p where
  opened h := h.1
  joins budget owned h := ⟨closed_open.joins budget owned h.1, h.2⟩
  leaves h hi hf hpost := ⟨closed_open.leaves h.1 hi hf hpost, h.2⟩
  takes h hf hget := ⟨closed_open.takes h.1 hf hget, h.2⟩
  goesLive h hf hpost := ⟨closed_open.goesLive h.1 hf hpost, h.2⟩

/-- One record folded in and fanned out, when nothing of it raised. -/
theorem note_ok {e : Int × Record} (h : s.Open) (hok : (note lineSize e).result s = .ok ()) :
    ∃ wire, wireRecord L e.2 = .ok wire ∧ ((note lineSize e).after s).published.map Offer.record =
      s.published.map Offer.record ++ wire.toList := by
  obtain ⟨openTable, -, hok, htable⟩ := Effect.bind_result_ok hok
  obtain ⟨_, -, hok, hset⟩ := Effect.bind_result_ok hok
  obtain ⟨position, -, hok, hposition⟩ := Effect.bind_result_ok hok
  obtain ⟨_, -, hok, hset'⟩ := Effect.bind_result_ok hok
  obtain ⟨wire, hwire, hok, hread⟩ := Effect.bind_result_ok hok
  obtain ⟨_, -, hok, hcheck⟩ := Effect.bind_result_ok hok
  have hafter := htable.trans (hset.trans (hposition.trans (hset'.trans (hread.trans hcheck))))
  refine ⟨wire, ?_, ?_⟩
  · rw [reads, Effect.result_asks] at hwire
    cases hrecord : wireRecord L e.2 with
    | error e' =>
      rw [hrecord] at hwire
      cases hwire
    | ok wire' =>
      rw [hrecord] at hwire
      cases hwire
      rfl
  · have hafter : (note lineSize e).after s = _ := hafter
    rw [hafter]
    cases wire with
    | none => exact (List.append_nil _).symm
    | some record =>
      have hspread := (publish_spec (o := { record, size := lineSize record })
        (s := { s with journal := { s.journal with openTable, position } }) ⟨h.nodup, h.opened⟩).2
      show ((publish { record, size := lineSize record }).after
        { s with journal := { s.journal with openTable, position } }).published.map Offer.record = _
      rw [hspread, spread, List.map_append]
      rfl

theorem notes_ok : ∀ {es : List (Int × Record)} {s : FanOut L}, s.Open →
    (notes lineSize es).result s = .ok () → ∃ wires, (es.map Prod.snd).mapM (wireRecord L) = .ok wires ∧
      ((notes lineSize es).after s).published.map Offer.record =
        s.published.map Offer.record ++ wires.reduceOption
  | [], s, _, _ => ⟨[], rfl, (List.append_nil _).symm⟩
  | e :: es, s, h, hok => by
    obtain ⟨_, hhere, hrest, hafter⟩ := Effect.bind_result_ok hok
    obtain ⟨wire, hwire, hpublished⟩ := note_ok h hhere
    obtain ⟨wires, hwires, hpublished'⟩ := notes_ok (closed_open.note e s h) hrest
    refine ⟨wire :: wires, ?_, ?_⟩
    · rw [List.map_cons, List.mapM_cons, hwire, ok_bind, hwires]
      rfl
    · have hafter : (notes lineSize (e :: es)).after s = _ := hafter
      rw [hafter, hpublished', hpublished, List.append_assoc]
      cases wire with
      | none => rw [Option.toList_none, List.nil_append, List.reduceOption_cons_of_none]
      | some record => rw [Option.toList_some, List.singleton_append, List.reduceOption_cons_of_some]

theorem map_numbered {first : Int} : ∀ records : List Record,
    (Journal.numbered first records).map Prod.snd = records := by
  intro records
  induction records generalizing first with
  | nil => rfl
  | cons record records ih => rw [Journal.numbered, List.map_cons, ih]

theorem mapError_ok {α : Type} {x : Except Error α} {a : α} (h : x.mapError Raised.journal = .ok a) :
    x = .ok a := by
  cases x with
  | error e => cases h
  | ok b => exact congrArg Except.ok (Except.ok.inj h)

/-- An append that returns wrote its records and fanned them out. -/
theorem append_commits {proof : Except Error Unit} {last : Int} (h : s.Open)
    (hok : (append lineSize proof records).result s = .ok last) :
    Commits s ((append lineSize proof records).after s) records ∧
      ((append lineSize proof records).after s).last_seq = last ∧
      ((append lineSize proof records).after s).journal.store =
        (MemoryStore.append records).after s.journal.store ∧
      last = s.journal.store.lastSeq + records.length := by
  obtain ⟨_, -, hok, hchecked⟩ := Effect.bind_result_ok hok
  obtain ⟨_, -, hok, hproved⟩ := Effect.bind_result_ok hok
  obtain ⟨last', hwritten, hok, hstore⟩ := Effect.bind_result_ok hok
  obtain ⟨_, -, hok, hset⟩ := Effect.bind_result_ok hok
  obtain ⟨_, hnoted, hok, hnotes⟩ := Effect.bind_result_ok hok
  cases hok
  have hresult : (MemoryStore.append records).result s.journal.store = .ok last := mapError_ok hwritten
  obtain ⟨encoded, hencoded, hrows, hlast⟩ := MemoryStore.append_ok hresult
  have hopen : Open { s with
      journal := { s.journal with store := (MemoryStore.append records).after s.journal.store }
      last_seq := last } := ⟨h.nodup, h.opened⟩
  have hafter : (append lineSize proof records).after s = (notes lineSize
      (Journal.numbered (last - records.length + 1) records)).after { s with
        journal := { s.journal with store := (MemoryStore.append records).after s.journal.store }
        last_seq := last } := hchecked.trans (hproved.trans (hstore.trans (hset.trans hnotes)))
  obtain ⟨wires, hwires, hpublished⟩ := notes_ok hopen hnoted
  obtain ⟨-, hkept, hseq⟩ := (folds_store _ _).notes
    (Journal.numbered (last - records.length + 1) records) _ ⟨hopen, rfl, rfl⟩
  rw [map_numbered] at hwires
  rw [hafter, hkept, hseq]
  refine ⟨⟨⟨encoded, hencoded, ?_⟩, ?_, wires, hwires, hpublished⟩, rfl, rfl, hlast⟩
  · rw [hkept, hrows]
    exact rows_foldl_push encoded s.journal.store
  · rw [hkept, hrows, MemoryStore.lastSeq_foldl_push, (mapM_inv hencoded).length_eq]

theorem append_error {e : Error} {m : MemoryStore} (h : (MemoryStore.append records).result m = .error e) :
    (MemoryStore.append records).after m = m := by
  simp only [MemoryStore.append, Effect.result_bind, Effect.after_bind, Effect.result_ofExcept,
    Effect.after_ofExcept] at h ⊢
  cases hencoded : records.mapM encode with
  | error e' => rfl
  | ok encoded =>
    rw [hencoded] at h
    dsimp only at h ⊢
    rw [MemoryStore.appendRows_result] at h
    rw [MemoryStore.appendRows_after]
    cases hcheck : MemoryStore.checkRequests m.requests [] encoded with
    | error e' => rfl
    | ok _ =>
      rw [hcheck] at h
      cases h

/-- The writer knows the last seq of its store, which calls of the store made. -/
structure Based (s : FanOut L) : Prop where
  opened : s.Open
  seam : s.last_seq = s.journal.store.lastSeq
  store : ∃ ops, s.journal.store = MemoryStore.empty.run ops

theorem folds_based : Folds (Based (L := L)) where
  opened h := h.opened
  folds openTable position h := ⟨closed_open.folds openTable position h.opened, h.seam, h.store⟩
  spread o h := ⟨closed_open.spread o h.opened, h.seam, h.store⟩

theorem handles_based : Handles (Based (L := L)) where
  opened h := h.opened
  joins budget owned h := ⟨closed_open.joins budget owned h.opened, h.seam, h.store⟩
  leaves h hi hf hpost := ⟨closed_open.leaves h.opened hi hf hpost, h.seam, h.store⟩
  takes h hf hget := ⟨closed_open.takes h.opened hf hget, h.seam, h.store⟩
  goesLive h hf hpost := ⟨closed_open.goesLive h.opened hf hpost, h.seam, h.store⟩

/-- A refused append leaves the store as it was; a written one leaves its seq, also where the fold
raises. -/
theorem append_based (proof : Except Error Unit) (records : List Record) :
    Effect.Keeps (Based (L := L)) (append lineSize proof records) := by
  refine (keeps_reads _).bind fun _ => (keeps_reads _).bind fun _ s hs => ?_
  rw [Effect.after_bind, result_onStore, after_onStore]
  cases hwritten : (MemoryStore.append records).result s.journal.store with
  | error e =>
    rw [append_error hwritten]
    exact hs
  | ok last =>
    obtain ⟨encoded, hencoded, hrows, hlast⟩ := MemoryStore.append_ok hwritten
    have hopen : Open { s with
        journal := { s.journal with store := (MemoryStore.append records).after s.journal.store }
        last_seq := last } := ⟨hs.opened.nodup, hs.opened.opened⟩
    have hnotes (st : MemoryStore) (n : Int) :
        Effect.Keeps (fun t : FanOut L => t.Open ∧ t.journal.store = st ∧ t.last_seq = n)
          (notes lineSize (Journal.numbered (last - records.length + 1) records)) := (folds_store st n).notes _
    obtain ⟨hopened, hkept, hseq⟩ := (hnotes _ _).bind (fun _ => Effect.keeps_pure last) _ ⟨hopen, rfl, rfl⟩
    refine ⟨hopened, ?_, ?_⟩
    · refine hseq.trans ?_
      refine Eq.trans ?_ (congrArg MemoryStore.lastSeq hkept).symm
      rw [hrows, MemoryStore.lastSeq_foldl_push, ← (mapM_inv hencoded).length_eq]
      exact hlast
    · obtain ⟨ops, hops⟩ := hs.store
      refine ⟨ops ++ [.append records], hkept.trans ?_⟩
      rw [MemoryStore.run, List.foldl_append, hops]
      exact (map_after _ _ _).symm

theorem step_based : ∀ call : Call, Effect.Keeps (Based (L := L)) (step lineSize call)
  | .append proof records => (append_based proof records).bind fun _ => Effect.keeps_pure ()
  | .publish o => folds_based.publish o
  | .subscribe _ _ | .unsubscribe _ | .get _ | .goLive _ => handles_based.step rfl

theorem Based.run (h : s.Based) : ∀ calls : List Call, (s.run lineSize calls).Based := by
  intro calls
  induction calls generalizing s with
  | nil => exact h
  | cons call calls ih => exact ih (step_based call s h)

variable (lineSize) in
/-- Every record fanned out is one that was appended, and an append that raises wrote nothing: the
engine stops at one that raises after its commit. -/
def Steady : List Call → FanOut L → Prop
  | [], _ => True
  | call :: calls, s => (∀ o, call ≠ .publish o) ∧
    ((step lineSize call).result s = .ok () ∨ (step lineSize call).after s = s) ∧
    Steady calls ((step lineSize call).after s)

theorem step_commits {call : Call} (h : s.Open) (hpublish : ∀ o, call ≠ .publish o)
    (hsteady : (step lineSize call).result s = .ok () ∨ (step lineSize call).after s = s) :
    ∃ records, Commits s ((step lineSize call).after s) records := by
  have hquiet : call.writes = false → ∃ records, Commits s ((step lineSize call).after s) records := by
    intro hcall
    have hstep : Effect.Keeps (fun t : FanOut L =>
        t.Open ∧ t.journal = s.journal ∧ t.last_seq = s.last_seq ∧ t.published = s.published) (step lineSize call) :=
      (handles_quiet s.journal s.last_seq s.published).step hcall
    obtain ⟨-, hjournal, -, hpublished⟩ := hstep s ⟨h, rfl, rfl, rfl⟩
    exact ⟨[], .refl (congrArg Journal.store hjournal) hpublished⟩
  cases call with
  | append proof records =>
    rcases hsteady with hok | heq
    · obtain ⟨last, happended, -, hafter⟩ := Effect.bind_result_ok hok
      have hafter : (step lineSize (.append proof records)).after s = _ := hafter
      rw [hafter]
      exact ⟨records, (append_commits h happended).1⟩
    · rw [heq]
      exact ⟨[], .refl rfl rfl⟩
  | publish o => exact absurd rfl (hpublish o)
  | subscribe budget owned => exact hquiet rfl
  | unsubscribe i => exact hquiet rfl
  | get i => exact hquiet rfl
  | goLive i => exact hquiet rfl

/-- What a steady run writes is what it fans out. -/
theorem run_commits : ∀ {calls : List Call} {s : FanOut L}, s.Open → Steady lineSize calls s →
    ∃ records, Commits s (s.run lineSize calls) records
  | [], s, _, _ => ⟨[], .refl rfl rfl⟩
  | call :: calls, s, h, hsteady => by
    obtain ⟨records, hhere⟩ := step_commits h hsteady.1 hsteady.2.1
    obtain ⟨records', hrest⟩ := run_commits (closed_open.step call s h) hsteady.2.2
    exact ⟨records ++ records', hhere.trans hrest⟩

theorem Steady.append : ∀ {calls more : List Call} {s : FanOut L}, Steady lineSize (calls ++ more) s →
    Steady lineSize calls s ∧ Steady lineSize more (s.run lineSize calls)
  | [], _, _, h => ⟨trivial, h⟩
  | _ :: _, _, _, h => ⟨⟨h.1, h.2.1, (Steady.append h.2.2).1⟩, (Steady.append h.2.2).2⟩

variable (L) in
/-- What a backfill read up to the seam and the records fanned out past it are to the rows of the
store. -/
structure Seamless (since seam : Int) (rows : List MemRow) (backfill live : List Value) : Prop where
  /-- The backfill is read from the rows after the cursor up to the seam. -/
  backfill : Sent L (following L since (upTo seam rows)) backfill
  /-- The rows past the seam are, in order, the encodings of the records that were fanned out. -/
  live : ∃ records, List.Forall₂ (fun record row => encode record = .ok row.2) records (rowsAfter seam rows) ∧
    (records.mapM (wireRecord L)).map List.reduceOption = .ok live
  /-- The two parts meet: they are the last rows of the store, each once. -/
  whole : following L since (upTo seam rows) ++ rowsAfter seam rows <:+ rows

/-- The seam of a state parts the rows of a later one: those of the state, and those written since. -/
theorem Commits.parts (hs : s.Based) (h : Commits s u records) :
    upTo s.last_seq u.journal.store.rows = s.journal.store.rows ∧
      ∃ encoded, records.mapM encode = .ok encoded ∧
        rowsAfter s.last_seq u.journal.store.rows = rowsFrom (s.last_seq + 1) encoded := by
  obtain ⟨ops, hops⟩ := hs.store
  have hlow : ∀ r ∈ s.journal.store.rows, r.1 ≤ s.last_seq := by
    intro r hr
    rw [hs.seam, hops]
    exact (holds_run ops).le_lastSeq (hops ▸ hr)
  obtain ⟨encoded, hencoded, hrows⟩ := h.stored
  rw [← hs.seam] at hrows
  have hhigh : ∀ r ∈ rowsFrom (s.last_seq + 1) encoded, s.last_seq < r.1 := fun r hr =>
    Int.lt_of_add_one_le (le_of_mem_rowsFrom hr).1
  refine ⟨?_, encoded, hencoded, ?_⟩
  · have hnone : upTo s.last_seq (rowsFrom (s.last_seq + 1) encoded) = [] :=
      List.filter_eq_nil_iff.mpr fun r hr => by
        have hlt := hhigh r hr
        simp only [decide_eq_true_eq]
        omega
    rw [hrows, upTo_append, hnone, List.append_nil]
    exact List.filter_eq_self.mpr fun r hr => decide_eq_true (hlow r hr)
  · have hnone : rowsAfter s.last_seq s.journal.store.rows = [] :=
      List.filter_eq_nil_iff.mpr fun r hr => by
        have hle := hlow r hr
        simp only [decide_eq_true_eq]
        omega
    rw [hrows, rowsAfter, List.filter_append]
    show rowsAfter s.last_seq s.journal.store.rows ++ _ = _
    rw [hnone, List.nil_append]
    exact List.filter_eq_self.mpr fun r hr => decide_eq_true (hhigh r hr)

theorem encodes_rowsFrom {encoded : List Encoded} {first : Int} (h : List.Forall₂ (fun record row =>
    encode record = .ok row) records encoded) :
    List.Forall₂ (fun record row => encode record = .ok row.2) records (rowsFrom first encoded) := by
  induction h generalizing first with
  | nil => exact .nil
  | cons hhere _ ih => exact .cons hhere ih

/-- A backfill read up to the seam, at any time after it, meets what was fanned out since. -/
theorem seamless {Rows : Type} {validate : Value → Option Rows} {since : Int} {b : Backfill}
    {sent : List Offer} (hs : s.Based) (hv : v.Based) (hsv : Commits s v records)
    (hsu : Commits s u records') (hsent : u.published = s.published ++ sent)
    (hb : v.journal.store.readBackfill L validate since s.last_seq = .ok b) :
    Seamless L since s.last_seq u.journal.store.rows b.records (sent.map Offer.record) := by
  obtain ⟨hupTo, -⟩ := hsv.parts hs
  obtain ⟨hupTo', encoded, hencoded, hafter⟩ := hsu.parts hs
  obtain ⟨ops, hops⟩ := hv.store
  have hsentBack : Sent L (following L since (upTo s.last_seq v.journal.store.rows)) b.records := by
    rw [hops] at hb ⊢
    exact (holds_run ops).sent hb
  refine ⟨?_, ⟨records', ?_, ?_⟩, ?_⟩
  · rw [hupTo', ← hupTo]
    exact hsentBack
  · rw [hafter]
    exact encodes_rowsFrom (mapM_inv hencoded)
  · obtain ⟨wires, hwires, hpublished⟩ := hsu.published
    rw [hsent, List.map_append] at hpublished
    rw [hwires, List.append_cancel_left hpublished]
    rfl
  · obtain ⟨encoded', hencoded', hrows⟩ := hsu.stored
    rw [hencoded] at hencoded'
    cases hencoded'
    rw [hupTo', hafter, hrows, hs.seam]
    exact List.suffix_append_self_iff.mpr (List.rtakeWhile_suffix _ _)

end Seam

/-! ## Every run -/

theorem based_opened (ops : List Op) (openTable : OpenTable) (position : Position L) :
    (opened { store := MemoryStore.empty.run ops, openTable, position }).Based where
  opened := ⟨List.nodup_nil, fun _ h => absurd h List.not_mem_nil⟩
  seam := rfl
  store := ⟨ops, rfl⟩

theorem bounded_opened (journal : Journal L) : (opened journal).Open ∧ (opened journal).AllBounded :=
  ⟨⟨List.nodup_nil, fun _ h => absurd h List.not_mem_nil⟩, fun _ _ h => nomatch h⟩

/-- A feed joins with nothing owed. -/
theorem joined_subscribe (h : s.Open) (budget : Int) (owned : Bool) :
    Joined s.feeds.length s.published ((subscribe budget owned).after s) where
  opened := closed_open.joins budget owned h
  owed := ⟨[], Feed.subscribe budget owned, (List.append_nil _).symm, List.getElem?_concat_length,
    Feed.owes_subscribe budget owned, iff_of_true (List.mem_append_right _ List.mem_cons_self) rfl⟩

theorem run_append {calls more : List Call} :
    s.run lineSize (calls ++ more) = (s.run lineSize calls).run lineSize more :=
  List.foldl_append

/-- **What the feeds serve.** Over a store any calls made, in every run of the writer, the readers and the
handlers, with any budgets: a backlog's count is that of its queue, within the budget or one record. A
feed that joined delivers a first part of what was fanned out since, all of it that is not queued
while the feed is open. What it holds is what it would hold alone. And a backfill read up to the
seam meets the records fanned out past it, as long as no append raises after its commit. -/
theorem feeds_serve {Rows : Type} (validate : Value → Option Rows) (lineSize : Value → Nat) (ops : List Op)
    (openTable : OpenTable) (position : Position L) (before : List Call) :
    let s := (opened { store := MemoryStore.empty.run ops, openTable, position }).run lineSize before
    s.AllBounded ∧ ∀ (budget : Int) (owned : Bool) (calls more : List Call),
      let joined := (subscribe budget owned).after s
      let i := s.feeds.length
      let v := joined.run lineSize calls
      let u := v.run lineSize more
      (∃ sent f, u.published = joined.published ++ sent ∧ u.feeds[i]? = some f ∧
        f.Owes (sent.map Offer.record) ∧ (i ∈ u.subscribers ↔ f.state.open = true) ∧
        (Steady lineSize (calls ++ more) joined → ∀ (since : Int) (b : Backfill),
          v.journal.store.readBackfill L validate since joined.last_seq = .ok b →
          Seamless L since joined.last_seq u.journal.store.rows b.records (sent.map Offer.record))) ∧
      u.feeds[i]? = ((joined.only i).run lineSize ((calls ++ more).filter (Call.concerns i))).feeds[i]? := by
  intro s
  have hs : s.Based := (based_opened ops openTable position).run before
  refine ⟨(closed_bounded.run (bounded_opened _)).2, fun budget owned calls more => ?_⟩
  intro joined i v u
  have hjoined : joined.Based := handles_based.joins budget owned hs
  have hi : i < joined.feeds.length := by
    show s.feeds.length < (s.feeds ++ [Feed.subscribe budget owned]).length
    rw [List.length_append]
    exact Nat.lt_succ_self _
  have hu : u = joined.run lineSize (calls ++ more) := run_append.symm
  obtain ⟨-, sent, f, hsent, hf, howes, hin⟩ : Joined i s.published u :=
    (closed_joined i s.published).run ((closed_joined i s.published).run (joined_subscribe hs.opened budget owned))
  refine ⟨⟨sent, f, hsent, hf, howes, hin, fun hsteady since b hb => ?_⟩, ?_⟩
  · obtain ⟨records, hv⟩ := run_commits hjoined.opened hsteady.append.1
    obtain ⟨records', hu'⟩ := run_commits hjoined.opened hsteady
    exact seamless hjoined (hjoined.run calls) hv (hu ▸ hu') hsent hb
  · rw [hu]
    exact run_alone hjoined.opened hi (calls ++ more)

/-- An input before the feed joins, its decision after it. -/
def beforeJoining : List Call := [.append (.ok ()) [inputRecord 1]]

def afterJoining : List Call := [.append (.ok ()) [decisionRecord 1], .goLive 0]

/-- The feed that joins between the two. -/
def joinedBetween : FanOut (plainLibrary emptyDigest) :=
  (subscribe 20 true).after (run (fun _ => 7)
    (opened { store := MemoryStore.empty.run [], openTable := .empty, position := .empty }) beforeJoining)

theorem eq_ok_of_isSome {x : Except Raised Unit} (h : x.toOption.isSome = true) : x = .ok () := by
  cases x with
  | ok _ => rfl
  | error e => cases h

theorem joinedBetween_steady : Steady (fun _ => 7) (afterJoining ++ [.get 0]) joinedBetween := by
  refine ⟨nofun, Or.inl (eq_ok_of_isSome ?_), nofun, Or.inl (eq_ok_of_isSome ?_), nofun,
    Or.inl (eq_ok_of_isSome ?_), trivial⟩
  · decide +kernel
  · decide +kernel
  · decide +kernel

-- the run would be evaluated to compare its states
attribute [local irreducible] run

theorem feeds_serve_between : ∃ (b : Backfill) (sent : List Offer),
    (joinedBetween.run (fun _ => 7) afterJoining).journal.store.readBackfill (plainLibrary emptyDigest)
      anyRows 0 joinedBetween.last_seq = .ok b ∧ b.records.length = 1 ∧
    Seamless (plainLibrary emptyDigest) 0 joinedBetween.last_seq
      ((joinedBetween.run (fun _ => 7) afterJoining).run (fun _ => 7) [.get 0]).journal.store.rows
      b.records (sent.map Offer.record) := by
  obtain ⟨⟨sent, f, -, -, -, -, hseam⟩, -⟩ :=
    (feeds_serve anyRows (fun _ => 7) [] .empty .empty beforeJoining).2 20 true afterJoining [.get 0]
  have hread : ((joinedBetween.run (fun _ => 7) afterJoining).journal.store.readBackfill
      (plainLibrary emptyDigest) anyRows 0 joinedBetween.last_seq).toOption.any (fun b => b.records.length = 1) = true := by
    decide +kernel
  obtain ⟨b, hb, hlength⟩ := exists_of_any hread
  exact ⟨b, sent, hb, of_decide_eq_true hlength, hseam joinedBetween_steady 0 b hb⟩

end FanOut

end Dsl41.Runner
