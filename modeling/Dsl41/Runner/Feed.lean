import Dsl41.Infra.Result
import Dsl41.Runner.Record

/-!
# One subscriber's feed

A feed queues the wire records appended since it began, under a byte budget, until its reader takes
them. Its chart's rows decide what an event does: a record enters an empty backlog, otherwise only
one that stays within the budget; a refused record removes the feed and drops its backlog.

* `Feed.Bounded` — the backlog's count and its bound
* `Feed.Owes` — what is delivered and queued is what was offered, in order
-/

namespace Dsl41.Runner

open Infra Infra.Json Canon

/-- `FEED_STATES`. The last two are final: the executor forgets an instance in the call that made it
final. -/
inductive FeedState
  | backfill | live | removed | closed
deriving DecidableEq, Repr

def FeedState.open : FeedState → Bool
  | backfill | live => true
  | removed | closed => false

/-- What a call on a feed or on its journal raises. -/
inductive Raised
  | journal (e : Error)
  | noInstance
  | unhandledEvent
  | queueEmpty

/-- One appended record for a feed, and the size of its stream line in bytes. -/
structure Offer where
  record : Value
  size : Nat

inductive FeedEvent
  | append (offer : Offer)
  | backfillSent
  | streamEnds

/-- `Subscription`. What was handed to the reader is kept beside it, oldest first; no call reads it. -/
structure Feed where
  budget : Int
  /-- Someone is to be told of an overflow. -/
  owned : Bool
  state : FeedState
  backlog_bytes : Int
  overflow : Option String
  queue : List Offer
  /-- The reasons the owner was told. -/
  told : List String
  delivered : List Value

namespace Feed

def subscribe (budget : Int) (owned : Bool) : Feed where
  budget
  owned
  state := .backfill
  backlog_bytes := 0
  overflow := none
  queue := []
  told := []
  delivered := []

variable (f : Feed)

/-- The guard `fits`: an empty backlog takes one record of any size. -/
def fits (offer : Offer) : Bool :=
  f.backlog_bytes = 0 || decide (f.backlog_bytes + offer.size ≤ f.budget)

def enqueue (offer : Offer) : Feed :=
  { f with queue := f.queue ++ [offer], backlog_bytes := f.backlog_bytes + offer.size }

def overflowText (offer : Offer) : String :=
  let bytes := f.backlog_bytes
  let size := offer.size
  let budget := f.budget
  s!"subscriber backlog of {bytes} bytes cannot take a {size}-byte record within the {budget}-byte budget"

def dropBacklog (offer : Offer) : Feed :=
  { f with overflow := some (f.overflowText offer), queue := [], backlog_bytes := 0 }

/-- `_post`: the feed after an event, and whether the journal is asked to take it out of the fan-out. -/
def post : FeedEvent → Except Raised (Feed × Bool)
  | .append offer =>
    if !f.state.open then .error .noInstance
    else if f.fits offer then .ok (f.enqueue offer, false)
    else .ok ({ f.dropBacklog offer with state := .removed }, true)
  | .backfillSent =>
    match f.state with
    | .backfill => .ok ({ f with state := .live }, false)
    | .live => .error .unhandledEvent
    | .removed | .closed => .error .noInstance
  | .streamEnds =>
    if f.state.open then .ok ({ f with state := .closed }, false) else .error .noInstance

/-- `get_nowait`, and `get` once there is a record. -/
def get : Except Raised (Feed × Value) :=
  match f.queue with
  | [] => .error .queueEmpty
  | offer :: queue =>
    .ok ({ f with queue, backlog_bytes := f.backlog_bytes - offer.size,
                  delivered := f.delivered ++ [offer.record] }, offer.record)

/-- `tell_owner`; what the owner does with the reason changes nothing here. -/
def tellOwner : Feed :=
  match f.overflow with
  | some why => if f.owned then { f with told := f.told ++ [why] } else f
  | none => f

/-! ## The backlog -/

/-- The size of the largest record of a queue. -/
def largest (queue : List Offer) : Nat := (queue.map Offer.size).foldr max 0

def bytes (queue : List Offer) : Nat := (queue.map Offer.size).sum

/-- The count is that of the queue, within the budget or one record. -/
structure Bounded : Prop where
  counted : f.backlog_bytes = bytes f.queue
  within : f.backlog_bytes ≤ max f.budget (largest f.queue)

variable {f} {f' : Feed} {offer : Offer} {queue : List Offer}

theorem largest_append : largest (queue ++ [offer]) = max (largest queue) offer.size := by
  induction queue with
  | nil => simp [largest]
  | cons o queue ih =>
    simp only [largest, List.cons_append, List.map_cons, List.foldr_cons] at ih ⊢
    rw [ih, max_assoc]

theorem bytes_append : bytes (queue ++ [offer]) = bytes queue + offer.size := by
  simp [bytes]

theorem bytes_cons : bytes (offer :: queue) = offer.size + bytes queue := by
  simp [bytes]

theorem largest_cons : largest (offer :: queue) = max offer.size (largest queue) := rfl

theorem bounded_subscribe (budget : Int) (owned : Bool) : (subscribe budget owned).Bounded where
  counted := rfl
  within := le_max_right _ _

theorem Bounded.enqueue (h : f.Bounded) (hfits : f.fits offer = true) : (f.enqueue offer).Bounded where
  counted := by
    simp only [Feed.enqueue, bytes_append, h.counted]
    push_cast
    rfl
  within := by
    simp only [Feed.enqueue, largest_append]
    rw [fits, Bool.or_eq_true, decide_eq_true_iff, decide_eq_true_iff] at hfits
    rcases hfits with hempty | hfits
    · -- an empty backlog takes the record whatever its size
      omega
    · exact hfits.trans (le_max_left _ _)

theorem bounded_drop (offer : Offer) : (f.dropBacklog offer).Bounded where
  counted := rfl
  within := le_max_right _ _

theorem Bounded.state (h : f.Bounded) (s : FeedState) : ({ f with state := s } : Feed).Bounded :=
  ⟨h.counted, h.within⟩

theorem Bounded.post {event : FeedEvent} {left : Bool} (h : f.Bounded)
    (hpost : f.post event = .ok (f', left)) : f'.Bounded := by
  cases event with
  | append offer =>
    simp only [Feed.post] at hpost
    split at hpost
    · cases hpost
    · split at hpost
      · next hfits =>
        cases hpost
        exact h.enqueue hfits
      · cases hpost
        exact (bounded_drop offer).state .removed
  | backfillSent =>
    simp only [Feed.post] at hpost
    split at hpost
    · cases hpost
      exact h.state .live
    all_goals cases hpost
  | streamEnds =>
    simp only [Feed.post] at hpost
    split at hpost
    · cases hpost
      exact h.state .closed
    · cases hpost

/-- The bytes a reader takes out are those its record was counted with. -/
theorem Bounded.get {record : Value} (h : f.Bounded) (hget : f.get = .ok (f', record)) : f'.Bounded := by
  unfold Feed.get at hget
  split at hget
  · cases hget
  · next offer queue hqueue =>
    cases hget
    have hcounted := h.counted
    have hwithin := h.within
    rw [hqueue, bytes_cons] at hcounted
    rw [hqueue, largest_cons] at hwithin
    push_cast at hcounted hwithin
    refine ⟨?_, ?_⟩
    · dsimp only
      omega
    · dsimp only
      omega

theorem tellOwner_eq : f.tellOwner = { f with told := f.tellOwner.told } := by
  unfold tellOwner
  split
  · split
    · rfl
    · rfl
  · rfl

theorem Bounded.tellOwner (h : f.Bounded) : f.tellOwner.Bounded := by
  rw [tellOwner_eq]
  exact ⟨h.counted, h.within⟩

/-! ## The records -/

variable (f) in
/-- Of the records `offered`, the first were delivered; while the feed is open the others are queued.
A removed feed has none left. -/
structure Owes (offered : List Value) : Prop where
  delivered : f.delivered ++ f.queue.map Offer.record <+: offered
  open_ : f.state.open = true → f.delivered ++ f.queue.map Offer.record = offered
  removed : f.state = .removed → f.queue = []

variable {offered : List Value}

theorem owes_subscribe (budget : Int) (owned : Bool) : (subscribe budget owned).Owes [] where
  delivered := List.prefix_rfl
  open_ _ := rfl
  removed := nofun

/-- The next record, offered to the feed while it is open: queued, or the feed removed. -/
theorem Owes.append {left : Bool} (h : f.Owes offered) (hpost : f.post (.append offer) = .ok (f', left)) :
    f'.Owes (offered ++ [offer.record]) ∧ f'.state.open = !left := by
  simp only [Feed.post] at hpost
  split at hpost
  · cases hpost
  · next hopen =>
    rw [Bool.not_eq_true', Bool.not_eq_false] at hopen
    have hall := h.open_ hopen
    split at hpost
    · cases hpost
      have heq : f.delivered ++ (f.queue ++ [offer]).map Offer.record = offered ++ [offer.record] := by
        rw [List.map_append, ← List.append_assoc, hall]
        rfl
      exact ⟨⟨heq ▸ List.prefix_rfl, fun _ => heq, fun hremoved => by
        have hremoved : f.state = .removed := hremoved
        rw [hremoved] at hopen
        cases hopen⟩, hopen⟩
    · cases hpost
      refine ⟨⟨?_, nofun, fun _ => rfl⟩, rfl⟩
      have hfirst : f.delivered <+: offered := hall ▸ List.prefix_append _ _
      exact (List.append_nil f.delivered).symm ▸ hfirst.trans (List.prefix_append _ _)

/-- A record that is offered to the others only. -/
theorem Owes.missed (h : f.Owes offered) (hclosed : f.state.open = false) (rest : List Value) :
    f.Owes (offered ++ rest) where
  delivered := h.delivered.trans (List.prefix_append _ _)
  open_ hopen := by
    rw [hclosed] at hopen
    cases hopen
  removed := h.removed

theorem Owes.post {event : FeedEvent} {left : Bool} (h : f.Owes offered)
    (hevent : ∀ offer, event ≠ .append offer) (hpost : f.post event = .ok (f', left)) : f'.Owes offered := by
  cases event with
  | append offer => exact absurd rfl (hevent offer)
  | backfillSent =>
    simp only [Feed.post] at hpost
    split at hpost
    · next hstate =>
      cases hpost
      exact ⟨h.delivered, fun _ => h.open_ (by rw [hstate]; rfl), nofun⟩
    all_goals cases hpost
  | streamEnds =>
    simp only [Feed.post] at hpost
    split at hpost
    · cases hpost
      exact ⟨h.delivered, nofun, nofun⟩
    · cases hpost

theorem Owes.get {record : Value} (h : f.Owes offered) (hget : f.get = .ok (f', record)) :
    f'.Owes offered := by
  unfold Feed.get at hget
  split at hget
  · cases hget
  · next offer queue hqueue =>
    cases hget
    have heq : f.delivered ++ [offer.record] ++ queue.map Offer.record =
        f.delivered ++ f.queue.map Offer.record := by
      rw [hqueue, List.map_cons, List.append_assoc, List.singleton_append]
    refine ⟨heq ▸ h.delivered, fun hopen => heq.trans (h.open_ hopen), fun hremoved => ?_⟩
    have hnil := h.removed hremoved
    rw [hqueue] at hnil
    cases hnil

theorem Owes.tellOwner (h : f.Owes offered) : f.tellOwner.Owes offered := by
  rw [tellOwner_eq]
  exact ⟨h.delivered, h.open_, h.removed⟩

end Feed

end Dsl41.Runner
