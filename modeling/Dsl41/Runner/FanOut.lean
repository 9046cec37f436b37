import Dsl41.Runner.Backfill
import Dsl41.Runner.Feed

/-!
# The fan-out

The writer offers each record it committed, as the wire carries it, to every feed that has joined.
A feed that the record does not fit leaves the fan-out once every feed has been offered it.
-/

namespace Dsl41.Runner

open Infra Infra.Json Canon

/-- The writer with its feeds. A feed's place in `feeds` stands for its identity; what was fanned out
is kept beside them, oldest first, and no call reads it. -/
structure FanOut (L : Library) where
  journal : Journal L
  last_seq : Int
  feeds : List Feed
  subscribers : List Nat
  published : List Offer

namespace FanOut

variable {L : Library}

def opened (journal : Journal L) : FanOut L where
  journal
  last_seq := journal.store.lastSeq
  feeds := []
  subscribers := []
  published := []

/-! ## The calls -/

/-- A call on one feed. -/
def onFeed {α : Type} (i : Nat) (call : Feed → Except Raised (Feed × α)) :
    Effect Raised (FanOut L) α := do
  let feed ← Effect.asks fun s => (s.feeds[i]?).elim (.error .noInstance) .ok
  let answer ← Effect.ofExcept (call feed)
  modify fun s => { s with feeds := s.feeds.set i answer.1 }
  return answer.2

/-- Whether the feed took the record. -/
def offer (i : Nat) (offer : Offer) : Effect Raised (FanOut L) Bool := do
  let left ← onFeed i fun f => f.post (.append offer)
  return !left

/-- The feeds that did not take the record. -/
def offerAll (o : Offer) : List Nat → Effect Raised (FanOut L) (List Nat)
  | [] => return []
  | i :: is => do
    let took ← offer i o
    let overflowed ← offerAll o is
    return if took then overflowed else i :: overflowed

/-- `_publish`. -/
def publish (o : Offer) : Effect Raised (FanOut L) Unit := do
  let s ← get
  let overflowed ← offerAll o s.subscribers
  modify fun s => { s with
    subscribers := overflowed.foldl List.erase s.subscribers
    feeds := overflowed.foldl (fun feeds i => feeds.modify i Feed.tellOwner) s.feeds
    published := s.published ++ [o] }

def subscribe (budget : Int) (owned : Bool) : Effect Raised (FanOut L) Nat := do
  let s ← get
  modify fun s => { s with
    feeds := s.feeds ++ [Feed.subscribe budget owned]
    subscribers := s.subscribers ++ [s.feeds.length] }
  return s.feeds.length

def unsubscribe (i : Nat) : Effect Raised (FanOut L) Unit := do
  let s ← get
  if i ∈ s.subscribers then
    modify fun s => { s with subscribers := s.subscribers.erase i }
    let _ ← onFeed i fun f => f.post .streamEnds

def goLive (i : Nat) : Effect Raised (FanOut L) Unit := do
  let _ ← onFeed i fun f => f.post .backfillSent

def get (i : Nat) : Effect Raised (FanOut L) Value := onFeed i Feed.get

/-- A call on the store. -/
def onStore {α : Type} (call : Effect Error MemoryStore α) : Effect Raised (FanOut L) α :=
  ExceptT.mk fun s => ((call.result s.journal.store).mapError .journal,
    { s with journal := { s.journal with store := call.after s.journal.store } })

@[simp] theorem result_onStore {α : Type} (call : Effect Error MemoryStore α) (s : FanOut L) :
    (onStore call).result s = (call.result s.journal.store).mapError .journal := rfl

@[simp] theorem after_onStore {α : Type} (call : Effect Error MemoryStore α) (s : FanOut L) :
    (onStore call).after s =
      { s with journal := { s.journal with store := call.after s.journal.store } } := rfl

/-- A reading that raises an error of the journal. -/
def reads {α : Type} (reading : Journal L → Except Error α) : Effect Raised (FanOut L) α :=
  Effect.asks fun s => (reading s.journal).mapError .journal

section Append

-- the length of a record's stream line
variable (lineSize : Value → Nat)

/-- One committed record folded in and fanned out. -/
def note (e : Int × Record) : Effect Raised (FanOut L) Unit := do
  let openTable ← reads fun j => j.openTable.note L e.1 e.2
  modify fun s => { s with journal := { s.journal with openTable } }
  let position ← reads fun j => j.position.note e.2
  modify fun s => { s with journal := { s.journal with position } }
  let wire ← reads fun _ => wireRecord L e.2
  reads fun _ => Journal.checkStream wire
  match wire with
  | none => return ()
  | some record => publish { record, size := lineSize record }

def notes : List (Int × Record) → Effect Raised (FanOut L) Unit
  | [] => return ()
  | e :: es => do
    note lineSize e
    notes es

/-- `append`; `proof` is what proving the lock again comes to. -/
def append (proof : Except Error Unit) (records : List Record) : Effect Raised (FanOut L) Int := do
  let _ ← reads fun j => (Journal.numbered (j.store.lastSeq + 1) records).foldlM
    (Journal.checkOne (L := L)) j.openTable.dispatches
  reads fun _ => proof
  let last ← onStore (MemoryStore.append records)
  modify fun s => { s with last_seq := last }
  notes lineSize (Journal.numbered (last - records.length + 1) records)
  return last

end Append

/-! ## Runs -/

/-- What the engine, the readers and the subscribe handlers call, in any order. -/
inductive Call
  | append (proof : Except Error Unit) (records : List Record)
  | publish (o : Offer)
  | subscribe (budget : Int) (owned : Bool)
  | unsubscribe (i : Nat)
  | get (i : Nat)
  | goLive (i : Nat)

section Run

variable (lineSize : Value → Nat)

def step : Call → Effect Raised (FanOut L) Unit
  | .append proof records => do
    let _ ← append lineSize proof records
  | .publish o => publish o
  | .subscribe budget owned => do
    let _ ← subscribe budget owned
  | .unsubscribe i => unsubscribe i
  | .get i => do
    let _ ← get i
  | .goLive i => goLive i

/-- What a run of calls leaves, each run over what the one before left, also where that raised. -/
def run (s : FanOut L) (calls : List Call) : FanOut L :=
  calls.foldl (fun s call => (step lineSize call).after s) s

end Run

end FanOut

end Dsl41.Runner
