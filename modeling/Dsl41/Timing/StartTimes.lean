import Mathlib.Data.List.Sort
import Mathlib.Data.List.Infix
import Dsl41.Timing.Windows

/-!
# Start times and their slots

The instants a job's start times fire at on a local day, and the slot that an instant names. The
deadlines that pair with the start times by position are read off the slot.
-/

namespace Dsl41.Timing

open Infra

/-- `sorted(range(len(times)), key=lambda i: times[i])`, each index with its time. -/
def inWallOrder (times : List Time) : List (Time × Nat) :=
  times.zipIdx.insertionSort fun a b => a.1.toTime ≤ b.1.toTime

/-- The instant of a time of day that is in no missing hour. -/
def passInstant (change : Option DstChange) (day : Day) (tz : Option TzInfo) (t : Time) : Instant :=
  toUtc { WallTime.combine day t with fold := decide (change = some .fall ∧ t.hour = 1) } tz

/-- The time is in the hour that a change skips. -/
def Skipped (change : Option DstChange) (t : Time) : Prop := change = some .spring ∧ t.hour = 2

instance {change : Option DstChange} {t : Time} : Decidable (Skipped change t) := inferInstanceAs (Decidable (_ ∧ _))

/-- The loop of `start_time_instants`, with `gap_taken`. -/
def instantsFrom (change : Option DstChange) (day : Day) (tz : Option TzInfo) :
    Bool → List (Time × Nat) → List (Nat × Instant)
  | _, [] => []
  | gap_taken, (t, index) :: rest =>
    if Skipped change t then
      if gap_taken then instantsFrom change day tz gap_taken rest
      else (index, vendorGapInstant day t.minute tz) :: instantsFrom change day tz true rest
    else (index, passInstant change day tz t) :: instantsFrom change day tz gap_taken rest

/-- `start_time_instants`. -/
def startTimeInstants (day : Day) (times : List Time) (tz : Option TzInfo) (dst : DstStartTimes) :
    List (Nat × Instant) :=
  let change := match dst with
    | .vendor => dstChange day tz
    | .fold0 => none
  instantsFrom change day tz false (inWallOrder times)

/-! ## Slots -/

/-- The turn of `_start_slot` at one pair. -/
def betterSlot (now : Instant) (best : Option (Instant × Nat)) (pair : Nat × Instant) : Option (Instant × Nat) :=
  if pair.2 ≤ now ∧ now < pair.2 + MINUTE ∧ ∀ b ∈ best, b.1 < pair.2 then some (pair.2, pair.1) else best

/-- `_start_slot`: the index of the start time that the instant is. -/
def startSlot (now : Instant) (times : List Time) (tz : Option TzInfo) (dst : DstStartTimes) : Option Nat :=
  ((startTimeInstants (toLocal now tz).date times tz dst).foldl (betterSlot now) none).map Prod.snd

/-- `plan.times` of a start-times plan, and the instants of a day that the scheduler ticks at. -/
def planTimes (times : List Time) : List Time := times.insertionSort fun a b => a.toTime ≤ b.toTime

def planTicks (day : Day) (times : List Time) (tz : Option TzInfo) (dst : DstStartTimes) : List Instant :=
  (startTimeInstants day (planTimes times) tz dst).map Prod.snd

/-! ## Deadlines -/

/-- A must time: up to the third day. -/
structure MustTime where
  hour : Nat
  minute : Nat
  hour_le : hour ≤ 71
  minute_le : minute ≤ 59

inductive SlaSpec
  | absolute (times : List MustTime)
  | relative (offsets_min : List Int)

/-- `must_instant`. -/
def mustInstant (day : Day) (start : Time) (must : MustTime) (tz : Option TzInfo) : Instant :=
  let days : Nat := must.hour / 24
  let hour : Nat := must.hour % 24
  let due_day : Day := day + days
  let change := dstChange due_day tz
  let due :=
    if change = some .spring ∧ hour = 2 then vendorGapInstant due_day must.minute tz
    else
      let wall := WallTime.combine due_day ⟨hour, must.minute, by omega, must.minute_le⟩
      toUtc { wall with fold := decide (change = some .fall ∧ hour = 1 ∧ days = 0 ∧ start.hour = 1) } tz
  if dstChange day tz = some .spring ∧ start.hour = 2 then
    if due < vendorGapInstant day start.minute tz then vendorGapInstant day 59 tz else due
  else due

/-- `_sla_offset`; none where the subscript raises. -/
def slaOffset (offsets : List Int) (slot : Option Nat) : Option Int :=
  if offsets.length = 1 then offsets[0]?
  else
    match slot with
    | none => offsets[0]?
    | some i => offsets[i]?

/-- `_absolute_deadline`. -/
def absoluteDeadline (now : Instant) (starts : List Time) (tz : Option TzInfo) (dst : DstStartTimes)
    (times : List MustTime) : Option Instant :=
  match startSlot now starts tz dst with
  | none => none
  | some slot =>
    match starts[slot]?, times[slot]? with
    | some start, some must => some (max (mustInstant (toLocal now tz).date start must tz) now)
    | _, _ => none

/-- The deadline that a tick arms, of `_slot_deadline`. -/
def slotDeadline (now : Instant) (starts : List Time) (tz : Option TzInfo) (dst : DstStartTimes) : SlaSpec → Option Instant
  | .relative offsets => (slaOffset offsets (startSlot now starts tz dst)).map fun n => now + n * MINUTE
  | .absolute times => absoluteDeadline now starts tz dst times

/-! ## The entries that fire -/

variable {change : Option DstChange} {day : Day} {tz : Option TzInfo} {times : List Time} {dst : DstStartTimes}
  {at_ now : Instant} {i j : Nat} {t u : Time} {l : List (Time × Nat)}

theorem Time.toTime_injective : Function.Injective Time.toTime := by
  intro a b h
  obtain ⟨hour, minute, hhour, hminute⟩ := a
  obtain ⟨hour', minute', hhour', hminute'⟩ := b
  simp only [Time.toTime, HOUR, MINUTE, Time.mk.injEq] at *
  omega

/-- When an entry fires, if it does. -/
def fires (change : Option DstChange) (day : Day) (tz : Option TzInfo) (t : Time) : Instant :=
  if Skipped change t then vendorGapInstant day t.minute tz else passInstant change day tz t

/-- The loop keeps the entries in their order, and of the skipped hour at most one. -/
theorem instantsFrom_eq : ∀ (gap_taken : Bool) (l : List (Time × Nat)), ∃ kept : List (Time × Nat), kept.Sublist l ∧
    instantsFrom change day tz gap_taken l = kept.map (fun e => (e.2, fires change day tz e.1)) ∧
    kept.Pairwise (fun a b => ¬(Skipped change a.1 ∧ Skipped change b.1)) ∧
    (gap_taken = true → ∀ e ∈ kept, ¬Skipped change e.1)
  | _, [] => ⟨[], .slnil, rfl, .nil, fun _ => nofun⟩
  | gap_taken, (t, index) :: rest => by
    rw [instantsFrom]
    by_cases hskip : Skipped change t
    · rw [if_pos hskip]
      cases gap_taken with
      | true =>
        obtain ⟨kept, hsub, heq, hpair, hnone⟩ := instantsFrom_eq true rest
        exact ⟨kept, hsub.cons _, heq, hpair, hnone⟩
      | false =>
        obtain ⟨kept, hsub, heq, hpair, hnone⟩ := instantsFrom_eq true rest
        refine ⟨(t, index) :: kept, hsub.cons_cons _, ?_, ?_, nofun⟩
        · rw [List.map_cons, fires, if_pos hskip, ← heq]
          rfl
        · exact List.pairwise_cons.mpr ⟨fun e he hboth => hnone rfl e he hboth.2, hpair⟩
    · rw [if_neg hskip]
      obtain ⟨kept, hsub, heq, hpair, hnone⟩ := instantsFrom_eq gap_taken rest
      refine ⟨(t, index) :: kept, hsub.cons_cons _, ?_, ?_, fun htaken e he => ?_⟩
      · rw [List.map_cons, fires, if_neg hskip, ← heq]
      · exact List.pairwise_cons.mpr ⟨fun e _ hboth => hskip hboth.1, hpair⟩
      · rcases List.mem_cons.mp he with rfl | he
        · exact hskip
        · exact hnone htaken e he

theorem mem_inWallOrder : (t, i) ∈ inWallOrder times ↔ times[i]? = some t := by
  rw [inWallOrder, List.mem_insertionSort, List.mem_zipIdx_iff_getElem?]

theorem inWallOrder_sorted : (inWallOrder times).Pairwise fun a b => a.1.toTime ≤ b.1.toTime :=
  have : Std.Total (fun a b : Time × Nat => a.1.toTime ≤ b.1.toTime) := ⟨fun _ _ => Int.le_total _ _⟩
  have : IsTrans (Time × Nat) (fun a b => a.1.toTime ≤ b.1.toTime) := ⟨fun _ _ _ => Int.le_trans⟩
  List.pairwise_insertionSort _ _

theorem planTimes_sorted : (planTimes times).Pairwise fun a b => a.toTime ≤ b.toTime :=
  have : Std.Total (fun a b : Time => a.toTime ≤ b.toTime) := ⟨fun _ _ => Int.le_total _ _⟩
  have : IsTrans Time (fun a b => a.toTime ≤ b.toTime) := ⟨fun _ _ _ => Int.le_trans⟩
  List.pairwise_insertionSort _ _

/-- The times in wall order, whichever way they are listed. -/
theorem inWallOrder_times : (inWallOrder times).map Prod.fst = planTimes times := by
  have hantisymm : ∀ a b : Time, a.toTime ≤ b.toTime → b.toTime ≤ a.toTime → a = b := fun a b hab hba =>
    Time.toTime_injective (Int.le_antisymm hab hba)
  refine List.Perm.eq_of_pairwise (fun a b _ _ => hantisymm a b) (List.pairwise_map.mpr inWallOrder_sorted)
    planTimes_sorted ?_
  have hzip : times.zipIdx.map Prod.fst = times := List.zipIdx_map_fst ..
  have hperm : ((inWallOrder times).map Prod.fst).Perm (times.zipIdx.map Prod.fst) := (List.perm_insertionSort _ _).map _
  rw [hzip] at hperm
  exact hperm.trans (List.perm_insertionSort _ _).symm

/-- The instants of a day are those of the sorted times. -/
theorem mem_planTicks : at_ ∈ planTicks day times tz dst ↔ ∃ i, (i, at_) ∈ startTimeInstants day times tz dst := by
  have hskip : ∀ (change : Option DstChange) (gap_taken : Bool) (l m : List (Time × Nat)),
      l.map Prod.fst = m.map Prod.fst →
        (instantsFrom change day tz gap_taken l).map Prod.snd = (instantsFrom change day tz gap_taken m).map Prod.snd := by
    intro change gap_taken l
    induction l generalizing gap_taken with
    | nil =>
      rintro m h
      obtain rfl : m = [] := List.map_eq_nil_iff.mp h.symm
      rfl
    | cons e l ih =>
      rintro m h
      obtain ⟨e', m, rfl, he, hm⟩ := List.map_eq_cons_iff.mp h.symm
      obtain ⟨t, i⟩ := e
      obtain ⟨u, k⟩ := e'
      obtain rfl : u = t := he
      rw [instantsFrom, instantsFrom]
      split
      · split
        · exact ih _ m hm.symm
        · rw [List.map_cons, List.map_cons, ih _ m hm.symm]
      · rw [List.map_cons, List.map_cons, ih _ m hm.symm]
  have hsame : (inWallOrder (planTimes times)).map Prod.fst = (inWallOrder times).map Prod.fst := by
    rw [inWallOrder_times, inWallOrder_times]
    exact planTimes_sorted.insertionSort_eq
  have hticks : planTicks day times tz dst = (startTimeInstants day times tz dst).map Prod.snd :=
    hskip _ _ _ _ hsame
  rw [hticks]
  simp only [List.mem_map, Prod.exists, exists_eq_right]

/-- Two pairs are entries of the job that fire, the one with the earlier time first. -/
theorem startTimeInstants_spec : ∃ kept : List (Time × Nat),
    startTimeInstants day times tz .vendor = kept.map (fun e => (e.2, fires (dstChange day tz) day tz e.1)) ∧
      (∀ t i, (t, i) ∈ kept → times[i]? = some t) ∧ (kept.Pairwise fun a b => a.1.toTime ≤ b.1.toTime) ∧
      kept.Pairwise (fun a b => ¬(Skipped (dstChange day tz) a.1 ∧ Skipped (dstChange day tz) b.1)) := by
  obtain ⟨kept, hsub, heq, hpair, -⟩ := @instantsFrom_eq (dstChange day tz) day tz false (inWallOrder times)
  exact ⟨kept, heq, fun t i h => mem_inWallOrder.mp (hsub.subset h), inWallOrder_sorted.sublist hsub, hpair⟩

/-! ## The slot of an instant -/

theorem betterSlot_le {best : Option (Instant × Nat)} {pair : Nat × Instant} (hbest : ∀ b ∈ best, b.1 < now)
    (hne : pair.2 ≠ now) : ∀ b ∈ betterSlot now best pair, b.1 < now := by
  unfold betterSlot
  split
  · next h =>
    rintro b ⟨⟩
    exact lt_of_le_of_ne h.1 hne
  · exact hbest

/-- Once the instant itself is found, nothing is better. -/
theorem foldl_kept : ∀ pairs : List (Nat × Instant),
    pairs.foldl (betterSlot now) (some (now, j)) = some (now, j)
  | [] => rfl
  | pair :: pairs => by
    have hkept : betterSlot now (some (now, j)) pair = some (now, j) :=
      if_neg fun h => absurd (h.2.2 _ rfl) (not_lt.mpr h.1)
    rw [List.foldl_cons, hkept, foldl_kept pairs]

/-- The first pair of the instant itself wins. -/
theorem foldl_first : ∀ {pairs : List (Nat × Instant)} {best : Option (Instant × Nat)}, (∀ b ∈ best, b.1 < now) →
    (i, now) ∈ pairs → ∃ before j after, pairs = before ++ (j, now) :: after ∧ (∀ e ∈ before, e.2 ≠ now) ∧
      pairs.foldl (betterSlot now) best = some (now, j)
  | (k, at_) :: pairs, best, hbest, hmem => by
    by_cases heq : at_ = now
    · subst heq
      have hminute : (0 : Int) < MINUTE := by decide
      have htaken : betterSlot at_ best (k, at_) = some (at_, k) :=
        if_pos ⟨le_rfl, Int.lt_add_of_pos_right _ hminute, hbest⟩
      exact ⟨[], k, pairs, rfl, nofun, by rw [List.foldl_cons, htaken, foldl_kept]⟩
    · have hrest : (i, now) ∈ pairs := by
        rcases List.mem_cons.mp hmem with hhead | hrest
        · exact absurd (congrArg Prod.snd hhead).symm heq
        · exact hrest
      obtain ⟨before, j, after, hpairs, hbefore, hfold⟩ :=
        foldl_first (@betterSlot_le now best (k, at_) hbest heq) hrest
      refine ⟨(k, at_) :: before, j, after, by rw [hpairs]; rfl, fun e he => ?_, hfold⟩
      rcases List.mem_cons.mp he with rfl | he
      · exact heq
      · exact hbefore e he

/-- The entry is the first of the day, in wall order, to fire at the instant. -/
structure Earliest (times : List Time) (tz : Option TzInfo) (day : Day) (at_ : Instant) (j : Nat) : Prop where
  fires : (j, at_) ∈ startTimeInstants day times tz .vendor
  earliest : ∀ t ∈ times[j]?, ∀ k, (k, at_) ∈ startTimeInstants day times tz .vendor →
    ∀ u ∈ times[k]?, t.toTime ≤ u.toTime

/-- An instant on its own day names the first entry that fires then. -/
theorem startSlot_earliest (h : (i, at_) ∈ startTimeInstants day times tz .vendor)
    (hday : (toLocal at_ tz).date = day) : ∃ j, startSlot at_ times tz .vendor = some j ∧ Earliest times tz day at_ j := by
  obtain ⟨before, j, after, hpairs, hbefore, hfold⟩ := @foldl_first at_ i _ none nofun h
  have hslot : startSlot at_ times tz .vendor = some j := by
    rw [startSlot, hday, hfold]
    rfl
  refine ⟨j, hslot, hpairs ▸ List.mem_append_right _ List.mem_cons_self, ?_⟩
  obtain ⟨kept, heq, htimes, hsorted, -⟩ := @startTimeInstants_spec day tz times
  have hkept := hpairs.symm.trans heq
  obtain ⟨first, rest, hsplit, hfirst, hrest⟩ := List.map_eq_append_iff.mp hkept.symm
  obtain ⟨e, later, hlater, he, hafter⟩ := List.map_eq_cons_iff.mp hrest
  intro t ht k hk u hu
  have hj : times[j]? = some e.1 := by
    have hmem : (e.1, e.2) ∈ kept := by rw [hsplit, hlater]; simp
    rw [← htimes _ _ hmem]
    exact congrArg (times[·]?) (congrArg Prod.fst he).symm
  obtain rfl : t = e.1 := Option.some.inj (ht.symm.trans hj)
  rw [heq, List.mem_map] at hk
  obtain ⟨e', he', hpair⟩ := hk
  have hu' : times[k]? = some e'.1 := by
    rw [← htimes _ _ he']
    exact congrArg (times[·]?) (congrArg Prod.fst hpair).symm
  obtain rfl : u = e'.1 := Option.some.inj (hu.symm.trans hu')
  rw [hsplit, hlater] at he' hsorted
  rcases List.mem_append.mp he' with hin | hin
  · -- nothing before the first one fires then
    have hnot : fires (dstChange day tz) day tz e'.1 ≠ at_ :=
      hbefore (e'.2, fires (dstChange day tz) day tz e'.1) (hfirst ▸ List.mem_map_of_mem hin)
    exact absurd (congrArg Prod.snd hpair) hnot
  · rcases List.mem_cons.mp hin with rfl | hin
    · exact le_rfl
    · exact (List.pairwise_cons.mp (List.pairwise_append.mp hsorted).2.1).1 e' hin

/-! ## Zones of one-hour changes -/

variable {off : Day → Int} {changes : Day → Option DstChange}

/-- How long after midnight a start time fires. -/
def startAfter (change : Option DstChange) (t : Time) : Int :=
  match change with
  | none => t.toTime
  | some .spring =>
    if t.toTime < 2 * HOUR then t.toTime
    else if t.toTime < 3 * HOUR then 2 * HOUR + t.minute * SECOND
    else t.toTime - HOUR
  | some .fall => if t.toTime < HOUR then t.toTime else t.toTime + HOUR

theorem Reads.fires_eq (h : Reads tz off changes) :
    fires (changes day) day tz t = midnight off day + startAfter (changes day) t := by
  have hmissing := Time.hour_eq_iff (t := t) (n := 2)
  have hrepeated := Time.hour_eq_iff (t := t) (n := 1)
  simp only [fires, Skipped, vendorGapInstant, passInstant, h.utc, WallTime.ticks, WallTime.combine, midnight, startAfter,
    Time.toTime, HOUR, MINUTE, SECOND] at *
  rcases changes day with _ | _ | _
  · simp only [reduceCtorEq, false_and, if_false, offsetOn]
    lia
  · simp only [true_and, Option.some.injEq, reduceCtorEq, false_and, decide_false, offsetOn, HOUR, MINUTE, Nat.cast_ofNat,
      Nat.cast_zero]
    split_ifs <;> lia
  · simp only [Option.some.injEq, reduceCtorEq, false_and, if_false, offsetOn, HOUR, MINUTE, true_and,
      decide_eq_false_iff_not]
    split_ifs <;> lia

/-- A start time fires on its day. -/
theorem Reads.fires_between (h : Reads tz off changes) :
    midnight off day ≤ fires (changes day) day tz t ∧ fires (changes day) day tz t < midnight off (day + 1) := by
  have hnonneg := t.toTime_nonneg
  have hlt := t.toTime_lt
  have hminute := t.minute_le
  rw [h.fires_eq, midnight, midnight, h.next, Int.add_mul, Int.one_mul]
  unfold startAfter offsetAfter DAY HOUR MINUTE SECOND at *
  rcases changes day with _ | _ | _ <;> dsimp only <;> (try split_ifs) <;> lia

/-- An instant between a day's midnights has that day for its date. -/
theorem Reads.date_eq (h : Reads tz off changes) (hfrom : midnight off day ≤ now) (hto : now < midnight off (day + 1)) :
    (toLocal now tz).date = day := by
  obtain ⟨hbegan, hends⟩ := h.local_day now
  have hle : (toLocal now tz).date < day + 1 := h.midnight_strictMono.lt_iff_lt.mp (lt_of_le_of_lt hbegan hto)
  have hge : day < (toLocal now tz).date + 1 := h.midnight_strictMono.lt_iff_lt.mp (lt_of_le_of_lt hfrom hends)
  lia

/-- Two times fire together only when one is the first minute of the skipped hour and the other of the next. -/
theorem startAfter_inj (h : startAfter change t = startAfter change u) (hle : t.toTime ≤ u.toTime)
    (hskip : ¬(Skipped change t ∧ Skipped change u)) :
    t = u ∨ change = some .spring ∧ t = twoOClock ∧ u = threeOClock := by
  obtain ⟨hour, minute, hhour, hminute⟩ := t
  obtain ⟨hour', minute', hhour', hminute'⟩ := u
  simp only [startAfter, Skipped, Time.toTime, twoOClock, threeOClock, HOUR, MINUTE, SECOND, Time.mk.injEq] at *
  rcases change with _ | _ | _ <;> dsimp only at h
  · omega
  · simp only [true_and] at *
    split_ifs at h <;> omega
  · split_ifs at h <;> omega

/-- In such a zone an entry is the first to fire at its instant, but for one at three o'clock whose
instant an entry in the skipped hour takes. -/
theorem Reads.earliest_self (h : Reads tz off changes) (hdistinct : times.Nodup)
    (hi : (i, at_) ∈ startTimeInstants day times tz .vendor)
    (hshared : ¬(changes day = some .spring ∧ twoOClock ∈ times ∧ times[i]? = some threeOClock))
    (hj : Earliest times tz day at_ j) : j = i := by
  obtain ⟨kept, heq, htimes, hsorted, hpair⟩ := @startTimeInstants_spec day tz times
  have hentry : ∀ k, (k, at_) ∈ startTimeInstants day times tz .vendor →
      ∃ t, (t, k) ∈ kept ∧ times[k]? = some t ∧ at_ = midnight off day + startAfter (changes day) t := by
    intro k hk
    rw [heq, List.mem_map] at hk
    obtain ⟨⟨t, k'⟩, hmem, hk⟩ := hk
    obtain ⟨rfl, rfl⟩ := Prod.mk.injEq .. ▸ hk
    exact ⟨t, hmem, htimes t _ hmem, by rw [h.change_eq, h.fires_eq]⟩
  obtain ⟨t, hmem, ht, hat⟩ := hentry i hi
  obtain ⟨u, hmem', hu, hat'⟩ := hentry j hj.fires
  have hle : u.toTime ≤ t.toTime := hj.earliest u hu i hi t ht
  by_contra hne
  have hskip : ¬(Skipped (changes day) u ∧ Skipped (changes day) t) := by
    have : Std.Symm (fun a b : Time × Nat => ¬(Skipped (dstChange day tz) a.1 ∧ Skipped (dstChange day tz) b.1)) :=
      ⟨fun _ _ hab hba => hab hba.symm⟩
    have hall := hpair.forall hmem' hmem (fun heq => hne (congrArg Prod.snd heq))
    rwa [h.change_eq] at hall
  have hsame : startAfter (changes day) u = startAfter (changes day) t :=
    Int.add_left_cancel (hat'.symm.trans hat)
  rcases startAfter_inj hsame hle hskip with rfl | ⟨hspring, rfl, rfl⟩
  · have hlt : j < times.length := (List.getElem?_eq_some_iff.mp hu).1
    exact hne ((List.getElem?_inj hlt hdistinct).mp (hu.trans ht.symm))
  · exact hshared ⟨hspring, List.mem_of_getElem? hu, ht⟩

/-! ## The deadlines of a slot -/

/-- What a spec sets for the start `i`, at the instant it fires. -/
def deadlineOf (day : Day) (at_ : Instant) (starts : List Time) (tz : Option TzInfo) (i : Nat) : SlaSpec → Option Instant
  | .relative offsets => (if offsets.length = 1 then offsets[0]? else offsets[i]?).map fun n => at_ + n * MINUTE
  | .absolute times =>
    match starts[i]?, times[i]? with
    | some start, some must => some (max (mustInstant day start must tz) at_)
    | _, _ => none

/-- The instant names the slot, and a deadline it arms is that slot's. -/
structure Names (times : List Time) (tz : Option TzInfo) (day : Day) (at_ : Instant) (i : Nat) : Prop where
  slot : startSlot at_ times tz .vendor = some i
  deadline : ∀ spec, slotDeadline at_ times tz .vendor spec = deadlineOf day at_ times tz i spec

theorem names_of_slot (hslot : startSlot at_ times tz .vendor = some i) (hday : (toLocal at_ tz).date = day) :
    Names times tz day at_ i := by
  refine ⟨hslot, fun spec => ?_⟩
  cases spec with
  | relative offsets => simp only [slotDeadline, deadlineOf, slaOffset, hslot]
  | absolute musts => simp only [slotDeadline, deadlineOf, absoluteDeadline, hslot, hday]

/-- A tick on its own local day names the earliest entry that fires at it; in a zone of one-hour
changes every entry fires on its day and names itself. -/
theorem startSlot_names (times : List Time) (tz : Option TzInfo) (day : Day) :
    (∀ at_ ∈ planTicks day times tz .vendor, ∃ i, (i, at_) ∈ startTimeInstants day times tz .vendor) ∧
      ∀ i at_, (i, at_) ∈ startTimeInstants day times tz .vendor →
        ((toLocal at_ tz).date = day → ∃ j, Names times tz day at_ j ∧ Earliest times tz day at_ j) ∧
          (Documented tz → times.Nodup →
            ¬(dstChange day tz = some .spring ∧ twoOClock ∈ times ∧ times[i]? = some threeOClock) →
            Names times tz day at_ i) := by
  refine ⟨fun at_ => mem_planTicks.mp, fun i at_ hi => ⟨fun hday => ?_, fun hzone hdistinct hshared => ?_⟩⟩
  · obtain ⟨j, hslot, hj⟩ := startSlot_earliest hi hday
    exact ⟨j, names_of_slot hslot hday, hj⟩
  · obtain ⟨off, changes, hreads⟩ := hzone.reads
    have hday : (toLocal at_ tz).date = day := by
      obtain ⟨kept, heq, -⟩ := @startTimeInstants_spec day tz times
      rw [heq, List.mem_map] at hi
      obtain ⟨⟨t, k⟩, -, hk⟩ := hi
      have hat : fires (dstChange day tz) day tz t = at_ := congrArg Prod.snd hk
      rw [← hat, hreads.change_eq]
      exact hreads.date_eq hreads.fires_between.1 hreads.fires_between.2
    obtain ⟨j, hslot, hj⟩ := startSlot_earliest hi hday
    rw [hreads.change_eq] at hshared
    obtain rfl := hreads.earliest_self hdistinct hi hshared hj
    exact names_of_slot hslot hday

/-- A quarter past two runs a quarter of a minute into the hour after it, and names its own slot. -/
theorem startSlot_names_summer :
    Names [⟨3, 15, by decide, by decide⟩, ⟨2, 15, by decide, by decide⟩] (some summer) 10
      (10 * DAY + 2 * HOUR + 15 * SECOND) 1 :=
  ((startSlot_names _ (some summer) 10).2 1 (10 * DAY + 2 * HOUR + 15 * SECOND) (by decide +kernel)).2
    documented_summer (by decide) (by decide +kernel)

/-- A zone whose clocks go forward at midnight of the tenth day. -/
def midnightGap : TzInfo where
  utcoffset w := if w.date < 10 ∨ w.date = 10 ∧ w.time < HOUR ∧ w.fold = false then 0 else HOUR
  fromutc u := toLocal (if u < 10 * DAY then u else u + HOUR) none

theorem lawful_midnightGap : midnightGap.Lawful := by
  intro u
  unfold midnightGap toUtc WallTime.ticks toLocal DAY HOUR MINUTE
  simp only [Instant, Day] at u ⊢
  split_ifs <;> omega

/-- Half past midnight does not exist there and falls on the instant of half past one, whose slot is
then the earlier one. -/
theorem startSlot_midnightGap :
    midnightGap.Lawful ∧
      (1, 10 * DAY + 30 * MINUTE) ∈ startTimeInstants 10 [⟨0, 30, by decide, by decide⟩, ⟨1, 30, by decide, by decide⟩]
        (some midnightGap) .vendor ∧
      startSlot (10 * DAY + 30 * MINUTE) [⟨0, 30, by decide, by decide⟩, ⟨1, 30, by decide, by decide⟩]
        (some midnightGap) .vendor = some 0 :=
  ⟨lawful_midnightGap, by decide +kernel, by decide +kernel⟩

end Dsl41.Timing
