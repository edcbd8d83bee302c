import Mathlib

/-!
# NetworkPool.RateLimiter

The rate limiter of the network pool. For each address and for each peer id it keeps the scores of the last
`interval`, the oldest first, with the capacity they leave; both tables forget the sender that was quiet the longest.

The first call of a sender makes its record and is not charged to it, whatever its score. All other accepted calls
keep to the limit in every window, and a call is only refused when it would break it.
-/

namespace MinaProtocol.RateLimiter

/-- Five minutes, in milliseconds, as all times here. -/
def interval : Int := 5 * 60 * 1000

/-- A score and the time of its action. -/
abbrev Elt := Int × Int

/-- For a given peer, all of the actions within `interval` that peer has performed, along with the remaining
capacity for actions. -/
structure Record where
  remainingCapacity : Int
  elts : List Elt

/-- The answers of the `add` of a table. -/
inductive Room where
  | ok
  | noSpace

/-- The answers of the `add` of the limiter. -/
inductive Answer where
  | withinCapacity
  | capacityExceeded
deriving DecidableEq

namespace Record

def clearFrom (now remainingCapacity : Int) : List Elt → Record
  | [] => ⟨remainingCapacity, []⟩
  | (n, t) :: elts =>
    if interval < now - t then clearFrom now (remainingCapacity + n) elts else ⟨remainingCapacity, (n, t) :: elts⟩

def clearOldEntries (r : Record) (now : Int) : Record := clearFrom now r.remainingCapacity r.elts

def add (r : Record) (now score : Int) : Record × Room :=
  let newScore := r.remainingCapacity - score
  if 0 ≤ newScore then (clearOldEntries ⟨newScore, r.elts ++ [(score, now)]⟩ now, .ok) else (r, .noSpace)

end Record

/-- `max_size`. -/
def maxSize : Nat := 2048

/-- A table of records, the one to be forgotten next in front. -/
structure Lru (K : Type) where
  table : List (K × Record)
  initialCapacity : Int

namespace Lru

variable {K : Type} [DecidableEq K]

def create (initialCapacity : Int) : Lru K := ⟨[], initialCapacity⟩

def lookup (t : Lru K) (k : K) : Option Record := (t.table.find? (·.1 = k)).map (·.2)

/-- The record of a key moves to the back, and is changed there. -/
def toBack (t : Lru K) (k : K) (r : Record) : Lru K := { t with table := t.table.filter (·.1 ≠ k) ++ [(k, r)] }

def add (t : Lru K) (k : K) (now score : Int) : Lru K × Room :=
  match t.lookup k with
  | none =>
    let table := if maxSize ≤ t.table.length then t.table.tail else t.table
    ({ t with table := table ++ [(k, ⟨t.initialCapacity, []⟩)] }, .ok)
  | some r => (t.toBack k (r.add now score).1, (r.add now score).2)

def hasCapacity (t : Lru K) (k : K) (now score : Int) : Lru K × Bool :=
  match t.lookup k with
  | none => (t, true)
  | some r =>
    let r := r.clearOldEntries now
    (t.toBack k r, decide (0 ≤ r.remainingCapacity - score))

end Lru

/-- `Envelope.Sender.t`. -/
inductive Sender (Ip PeerId : Type) where
  | localNode
  | remote (ip : Ip) (peerId : PeerId)
deriving DecidableEq

/-- `Rate_limiter.t`. -/
structure T (Ip PeerId : Type) where
  byIp : Lru Ip
  byPeerId : Lru PeerId

variable {Ip PeerId : Type}

section Calls

variable [DecidableEq Ip] [DecidableEq PeerId]

/-- The capacity of an interval at a rate of `capacity` actions in `per` milliseconds, rounded up. -/
def initialCapacity (capacity per : Nat) : Int := ((capacity * interval.toNat + per - 1) / per : Nat)

def create (capacity per : Nat) : T Ip PeerId :=
  ⟨Lru.create (initialCapacity capacity per), Lru.create (initialCapacity capacity per)⟩

variable (t : T Ip PeerId)

def add (sender : Sender Ip PeerId) (now score : Int) : T Ip PeerId × Answer :=
  match sender with
  | .localNode => (t, .withinCapacity)
  | .remote ip id =>
    let (byIp, ipHasCapacity) := t.byIp.hasCapacity ip now score
    if ipHasCapacity then
      let (byPeerId, idHasCapacity) := t.byPeerId.hasCapacity id now score
      if idHasCapacity then (⟨(byIp.add ip now score).1, (byPeerId.add id now score).1⟩, .withinCapacity)
      else (⟨byIp, byPeerId⟩, .capacityExceeded)
    else ({ t with byIp := byIp }, .capacityExceeded)

/-! ### Sequences of calls -/

/-- The arguments of a call of `add`. -/
structure Call (Ip PeerId : Type) where
  sender : Sender Ip PeerId
  now : Int
  score : Int
deriving DecidableEq

def Call.ip (c : Call Ip PeerId) : Option Ip :=
  match c.sender with
  | .localNode => none
  | .remote ip _ => some ip

variable (c : Call Ip PeerId)

def Call.peerId : Option PeerId :=
  match c.sender with
  | .localNode => none
  | .remote _ id => some id

/-- The limiter after calls. -/
def after (calls : List (Call Ip PeerId)) : T Ip PeerId :=
  calls.foldl (fun t c => (add t c.sender c.now c.score).1) t

def answer : Answer := (add t c.sender c.now c.score).2

/-- The call, if it is answered `withinCapacity`. -/
def accepted : List (Call Ip PeerId) := if answer t c = .withinCapacity then [c] else []

/-- The calls that are answered `withinCapacity`. -/
def acceptedCalls (t : T Ip PeerId) : List (Call Ip PeerId) → List (Call Ip PeerId)
  | [] => []
  | c :: calls => accepted t c ++ acceptedCalls (add t c.sender c.now c.score).1 calls

/-- The scores of the accepted calls of one sender, with their times. -/
def scoresOf {K : Type} [DecidableEq K] (key : Call Ip PeerId → Option K) (k : K) (calls : List (Call Ip PeerId)) : List Elt :=
  (calls.filter (key · = some k)).map fun c => (c.score, c.now)

/-- The sum of the scores in the window of length `interval` that starts at `start`. -/
def inWindow (start : Int) (elts : List Elt) : Int :=
  ((elts.filter fun e => start ≤ e.2 ∧ e.2 ≤ start + interval).map (·.1)).sum

/-- Both tables keep the sum of the queued scores of each record. -/
def Tallies (limit : Int) (t : T Ip PeerId) : Prop :=
  (∀ p ∈ t.byIp.table, p.2.remainingCapacity = limit - (p.2.elts.map (·.1)).sum) ∧
    ∀ p ∈ t.byPeerId.table, p.2.remainingCapacity = limit - (p.2.elts.map (·.1)).sum

/-- In every window the accepted scores of each address and of each id are within the limit. -/
def Bounded (limit : Int) (log : List (Call Ip PeerId)) : Prop :=
  (∀ ip start, inWindow start (scoresOf Call.ip ip log) ≤ limit) ∧
    ∀ id start, inWindow start (scoresOf Call.peerId id log) ≤ limit

/-- As `Bounded`, but for the first score of each address and of each id. -/
def BoundedAfterFirst (limit : Int) (log : List (Call Ip PeerId)) : Prop :=
  (∀ ip start, inWindow start (scoresOf Call.ip ip log).tail ≤ limit) ∧
    ∀ id start, inWindow start (scoresOf Call.peerId id log).tail ≤ limit

/-- Accepting the call would make too much of one of its windows, for its address or for its id. -/
def Breaks (limit : Int) (log : List (Call Ip PeerId)) (c : Call Ip PeerId) : Prop :=
  ∃ start, start ≤ c.now ∧ c.now ≤ start + interval ∧
    ((∃ ip, c.ip = some ip ∧ limit < inWindow start (scoresOf Call.ip ip log) + c.score) ∨
      ∃ id, c.peerId = some id ∧ limit < inWindow start (scoresOf Call.peerId id log) + c.score)

/-- If a score that counts is about to be accepted, both tables know its sender, and charge it. -/
def ChargesFor (now score : Int) : Sender Ip PeerId → Prop
  | .localNode => True
  | .remote ip id => score ≠ 0 → (t.byIp.hasCapacity ip now score).2 = true → (t.byPeerId.hasCapacity id now score).2 = true →
      (t.byIp.lookup ip).isSome ∧ (t.byPeerId.lookup id).isSome

instance instDecidableChargesFor (now score : Int) : (sender : Sender Ip PeerId) → Decidable (ChargesFor t now score sender)
  | .localNode => inferInstanceAs (Decidable True)
  | .remote ip id => inferInstanceAs (Decidable (score ≠ 0 → (t.byIp.hasCapacity ip now score).2 = true →
      (t.byPeerId.hasCapacity id now score).2 = true → (t.byIp.lookup ip).isSome ∧ (t.byPeerId.lookup id).isSome))

def Charges : Prop := ChargesFor t c.now c.score c.sender

/-- All calls of a sequence are charged. -/
def AllCharged (t : T Ip PeerId) : List (Call Ip PeerId) → Prop
  | [] => True
  | c :: calls => Charges t c ∧ AllCharged (add t c.sender c.now c.score).1 calls

instance instDecidableAllCharged (t : T Ip PeerId) : (calls : List (Call Ip PeerId)) → Decidable (AllCharged t calls)
  | [] => inferInstanceAs (Decidable True)
  | c :: calls =>
    have := instDecidableAllCharged (add t c.sender c.now c.score).1 calls
    inferInstanceAs (Decidable (ChargesFor t c.now c.score c.sender ∧ AllCharged (add t c.sender c.now c.score).1 calls))

end Calls

/-! ### Windows -/

section Windows

variable {start : Int} {elts elts' : List Elt}

theorem inWindow_append : inWindow start (elts ++ elts') = inWindow start elts + inWindow start elts' := by
  simp [inWindow]

theorem inWindow_singleton (score now : Int) :
    inWindow start [(score, now)] = if start ≤ now ∧ now ≤ start + interval then score else 0 := by
  by_cases hin : start ≤ now ∧ now ≤ start + interval
  · simp [inWindow, hin]
  · rw [if_neg hin, inWindow, List.filter_cons_of_neg (by simpa using hin)]
    rfl

theorem inWindow_le (hnonneg : ∀ e ∈ elts, 0 ≤ e.1) : inWindow start elts ≤ (elts.map (·.1)).sum := by
  induction elts with
  | nil => exact Int.le_refl _
  | cons e elts ih =>
    have hrest := ih fun e' he' => hnonneg e' (List.mem_cons_of_mem _ he')
    have hhead : inWindow start [e] ≤ e.1 := by
      rw [inWindow_singleton]
      split_ifs
      · exact Int.le_refl _
      · exact hnonneg e List.mem_cons_self
    calc inWindow start (e :: elts) = inWindow start [e] + inWindow start elts := (inWindow_append : inWindow start ([e] ++ elts) = _)
      _ ≤ e.1 + (elts.map (·.1)).sum := Int.add_le_add hhead hrest
      _ = ((e :: elts).map (·.1)).sum := by rw [List.map_cons, List.sum_cons]

theorem inWindow_outside (hout : ∀ e ∈ elts, e.2 < start ∨ start + interval < e.2) : inWindow start elts = 0 := by
  have hnone : elts.filter (fun e => start ≤ e.2 ∧ e.2 ≤ start + interval) = [] := by
    refine List.filter_eq_nil_iff.mpr fun e he => ?_
    have := hout e he
    simp only [decide_eq_true_eq]
    omega
  rw [inWindow, hnone]
  rfl

theorem inWindow_inside (hin : ∀ e ∈ elts, start ≤ e.2 ∧ e.2 ≤ start + interval) :
    inWindow start elts = (elts.map (·.1)).sum := by
  rw [inWindow, List.filter_eq_self.mpr fun e he => decide_eq_true (hin e he)]

end Windows

/-! ### One record -/

variable {capacity now : Int}

namespace Record

/-- A record keeps to the capacity for the scores it was charged: what is queued leaves the remaining capacity, and
what is not queued any more is old. -/
structure Keeps (capacity now : Int) (charged : List Elt) (r : Record) : Prop where
  remaining : r.remainingCapacity = capacity - (r.elts.map (·.1)).sum
  room : 0 ≤ r.remainingCapacity
  past : ∀ e ∈ r.elts, e.2 ≤ now
  sorted : r.elts.Pairwise (·.2 ≤ ·.2)
  queued : ∃ old, charged = old ++ r.elts ∧ ∀ e ∈ old, interval < now - e.2
  nonneg : ∀ e ∈ charged, 0 ≤ e.1
  bounded : ∀ start, inWindow start charged ≤ capacity

variable {score : Int} {charged : List Elt} {r : Record}

variable (h : Keeps capacity now charged r) {remaining : Int} {elts : List Elt}

include h in
theorem Keeps.later {now' : Int} (hle : now ≤ now') : Keeps capacity now' charged r := by
  obtain ⟨old, hcharged, hold⟩ := h.queued
  exact { h with
    past := fun e he => Int.le_trans (h.past e he) hle
    queued := ⟨old, hcharged, fun e he => by have := hold e he; omega⟩ }

/-- Crediting back the oldest entry when it is old. -/
theorem Keeps.dequeue {n t : Int} (h : Keeps capacity now charged ⟨remaining, (n, t) :: elts⟩)
    (hold : interval < now - t) : Keeps capacity now charged ⟨remaining + n, elts⟩ where
  remaining := by
    have hremaining : remaining = capacity - (n + (elts.map (·.1)).sum) := h.remaining
    show remaining + n = capacity - (elts.map (·.1)).sum
    omega
  room := by
    obtain ⟨old, hcharged, -⟩ := h.queued
    have hn : 0 ≤ n := h.nonneg (n, t) (by rw [hcharged]; simp)
    exact Int.add_nonneg h.room hn
  past := fun e he => h.past e (List.mem_cons_of_mem _ he)
  sorted := (List.pairwise_cons.mp h.sorted).2
  queued := by
    obtain ⟨old, hcharged, holds⟩ := h.queued
    refine ⟨old ++ [(n, t)], by rw [hcharged]; simp, fun e he => ?_⟩
    rcases List.mem_append.mp he with he | he
    · exact holds e he
    · rw [List.mem_singleton.mp he]
      exact hold
  nonneg := h.nonneg
  bounded := h.bounded

theorem Keeps.clearFrom (h : Keeps capacity now charged ⟨remaining, elts⟩) :
    Keeps capacity now charged (clearFrom now remaining elts) ∧ ∀ e ∈ (clearFrom now remaining elts).elts, now - e.2 ≤ interval := by
  induction elts generalizing remaining with
  | nil => exact ⟨h, by simp [Record.clearFrom]⟩
  | cons e elts ih =>
    obtain ⟨n, t⟩ := e
    rw [Record.clearFrom]
    by_cases hold : interval < now - t
    · rw [if_pos hold]
      exact ih (h.dequeue hold)
    · rw [if_neg hold]
      refine ⟨h, fun e he => ?_⟩
      rcases List.mem_cons.mp he with rfl | he
      · exact Int.not_lt.mp hold
      · -- the entries behind are no older
        have hle : t ≤ e.2 := (List.pairwise_cons.mp h.sorted).1 e he
        omega

include h

theorem Keeps.clearOldEntries : Keeps capacity now charged (r.clearOldEntries now) :=
  (Keeps.clearFrom h).1

/-- A new entry: the entries of its windows are all queued, and fit with it. -/
theorem Keeps.enqueue (hscore : 0 ≤ score) (hroom : 0 ≤ r.remainingCapacity - score) :
    Keeps capacity now (charged ++ [(score, now)]) ⟨r.remainingCapacity - score, r.elts ++ [(score, now)]⟩ where
  remaining := by
    have := h.remaining
    simp only [List.map_append, List.map_cons, List.map_nil, List.sum_append, List.sum_cons, List.sum_nil]
    omega
  room := hroom
  past := fun e he => by
    rcases List.mem_append.mp he with he | he
    · exact h.past e he
    · rw [List.mem_singleton.mp he]
  sorted := List.pairwise_append.mpr ⟨h.sorted, List.pairwise_singleton _ _, fun e he e' he' => by
    rw [List.mem_singleton.mp he']
    exact h.past e he⟩
  queued := by
    obtain ⟨old, hcharged, hold⟩ := h.queued
    exact ⟨old, by rw [hcharged, List.append_assoc], hold⟩
  nonneg := fun e he => by
    rcases List.mem_append.mp he with he | he
    · exact h.nonneg e he
    · rw [List.mem_singleton.mp he]
      exact hscore
  bounded := fun start => by
    rw [inWindow_append, inWindow_singleton]
    by_cases hin : start ≤ now ∧ now ≤ start + interval
    · obtain ⟨old, hcharged, hold⟩ := h.queued
      have hout : inWindow start old = 0 := inWindow_outside fun e he => by
        have := hold e he
        omega
      have hqueued : inWindow start r.elts ≤ (r.elts.map (·.1)).sum :=
        inWindow_le fun e he => h.nonneg e (by rw [hcharged]; exact List.mem_append_right _ he)
      have hremaining := h.remaining
      rw [if_pos hin, hcharged, inWindow_append, hout]
      omega
    · rw [if_neg hin, Int.add_zero]
      exact h.bounded start

theorem Keeps.add (hscore : 0 ≤ score) (hroom : 0 ≤ r.remainingCapacity - score) :
    Keeps capacity now (charged ++ [(score, now)]) (r.add now score).1 := by
  rw [Record.add, if_pos hroom]
  exact (h.enqueue hscore hroom).clearOldEntries

/-- Without room for a score, the last `interval` has no room for it. -/
theorem Keeps.refused (hno : (r.clearOldEntries now).remainingCapacity - score < 0) :
    capacity < inWindow (now - interval) charged + score := by
  obtain ⟨hclear, hrecent⟩ := Keeps.clearFrom h
  obtain ⟨old, hcharged, hold⟩ := hclear.queued
  have hout : inWindow (now - interval) old = 0 := inWindow_outside fun e he => by
    have := hold e he
    omega
  have hin : inWindow (now - interval) (r.clearOldEntries now).elts = ((r.clearOldEntries now).elts.map (·.1)).sum :=
    inWindow_inside fun e he => by
      have hnew := hrecent e he
      have hpast := hclear.past e he
      omega
  have hsum : inWindow (now - interval) charged = ((r.clearOldEntries now).elts.map (·.1)).sum := by
    rw [hcharged, inWindow_append, hout, Int.zero_add]
    exact hin
  have hremaining : (r.clearOldEntries now).remainingCapacity = capacity - ((r.clearOldEntries now).elts.map (·.1)).sum :=
    hclear.remaining
  rw [hsum]
  omega

omit h

theorem keeps_new (hcapacity : 0 ≤ capacity) : Keeps capacity now [] ⟨capacity, []⟩ where
  remaining := by simp
  room := hcapacity
  past := by simp
  sorted := List.Pairwise.nil
  queued := ⟨[], rfl, by simp⟩
  nonneg := by simp
  bounded := fun start => hcapacity

end Record

/-! ### One table -/

namespace Lru

section Table

variable {K : Type} [DecidableEq K] {t : Lru K} {k : K} {r : Record} {now score capacity : Int} {keys : Finset K}
  {accepted : K → List Elt}

theorem lookup_append (table table' : List (K × Record)) (c : Int) (k : K) :
    (Lru.mk (table ++ table') c).lookup k = ((Lru.mk table c).lookup k).or ((Lru.mk table' c).lookup k) := by
  rw [lookup, lookup, lookup, List.find?_append, Option.map_or]

theorem lookup_cons (q : K × Record) (table : List (K × Record)) (c : Int) (k : K) :
    (Lru.mk (q :: table) c).lookup k = if q.1 = k then some q.2 else (Lru.mk table c).lookup k := by
  by_cases heq : q.1 = k
  · rw [if_pos heq]
    simp [lookup, heq]
  · rw [if_neg heq]
    simp [lookup, heq]

theorem lookup_single (c : Int) (k k' : K) (r : Record) : (Lru.mk [(k, r)] c).lookup k' = if k = k' then some r else none :=
  lookup_cons (k, r) [] c k'

theorem lookup_filter (table : List (K × Record)) (c : Int) (k k' : K) :
    (Lru.mk (table.filter (·.1 ≠ k)) c).lookup k' = if k = k' then none else (Lru.mk table c).lookup k' := by
  induction table with
  | nil => simp [lookup]
  | cons q table ih =>
    by_cases hq : q.1 = k
    · rw [List.filter_cons_of_neg (by simpa using hq), ih, lookup_cons, hq]
      by_cases heq : k = k'
      · rw [if_pos heq, if_pos heq]
      · rw [if_neg heq, if_neg heq, if_neg heq]
    · rw [List.filter_cons_of_pos (by simpa using hq), lookup_cons, lookup_cons, ih]
      by_cases heq : k = k'
      · have hne : q.1 ≠ k' := fun h => hq (h.trans heq.symm)
        rw [if_neg hne, if_pos heq, if_pos heq]
      · rw [if_neg heq, if_neg heq]

theorem lookup_toBack (k' : K) : (t.toBack k r).lookup k' = if k = k' then some r else t.lookup k' := by
  rw [toBack, lookup_append, lookup_filter, lookup_single]
  by_cases heq : k = k'
  · simp [heq]
  · simp [heq]

theorem lookup_eq_none : t.lookup k = none ↔ k ∉ t.table.map (·.1) := by
  rw [lookup, Option.map_eq_none_iff, List.find?_eq_none]
  constructor
  · intro hnone hmem
    obtain ⟨p, hp, heq⟩ := List.mem_map.mp hmem
    exact hnone p hp (decide_eq_true heq)
  · intro hnot p hp heq
    exact hnot (List.mem_map.mpr ⟨p, hp, of_decide_eq_true heq⟩)

theorem lookup_of_mem {table : List (K × Record)} (c : Int) (hnodup : (table.map (·.1)).Nodup) {p : K × Record} (hp : p ∈ table) :
    (Lru.mk table c).lookup p.1 = some p.2 := by
  induction table with
  | nil => cases hp
  | cons q table ih =>
    rw [List.map_cons, List.nodup_cons] at hnodup
    rw [lookup_cons]
    rcases List.mem_cons.mp hp with heq | hp
    · rw [heq, if_pos rfl]
    · have hne : q.1 ≠ p.1 := fun heq => hnodup.1 (heq.symm ▸ List.mem_map_of_mem hp)
      rw [if_neg hne]
      exact ih hnodup.2 hp

/-- The table has a record for each sender that was accepted, and the record keeps to the capacity for what came after
the sender's first call. -/
structure Keeps (keys : Finset K) (capacity now : Int) (accepted : K → List Elt) (t : Lru K) : Prop where
  initial : t.initialCapacity = capacity
  nodup : (t.table.map (·.1)).Nodup
  known : ∀ k ∈ t.table.map (·.1), k ∈ keys
  fresh : ∀ k, t.lookup k = none → accepted k = []
  kept : ∀ k r, t.lookup k = some r → ∃ first charged, accepted k = first :: charged ∧ 0 ≤ first.1 ∧ r.Keeps capacity now charged

variable (h : t.Keeps keys capacity now accepted) {accepted' : K → List Elt}

include h in
theorem Keeps.later {now' : Int} (hle : now ≤ now') : t.Keeps keys capacity now' accepted :=
  { h with
    kept := fun k r hr => by
      obtain ⟨first, charged, haccepted, hfirst, hkeeps⟩ := h.kept k r hr
      exact ⟨first, charged, haccepted, hfirst, hkeeps.later hle⟩ }

theorem nodup_toBack (hnodup : (t.table.map (·.1)).Nodup) : ((t.toBack k r).table.map (·.1)).Nodup := by
  rw [toBack, List.map_append, List.nodup_append]
  refine ⟨(List.filter_sublist.map _).nodup hnodup, by simp, fun k' hk' k'' hk'' => ?_⟩
  obtain ⟨p, hp, rfl⟩ := List.mem_map.mp hk'
  have hne : p.1 ≠ k := by simpa using (List.mem_filter.mp hp).2
  have hk : k'' = k := by simpa using hk''
  rw [hk]
  exact hne

include h

theorem Keeps.put {t' : Lru K} (hk : k ∈ keys)
    (hinitial : t'.initialCapacity = t.initialCapacity) (hnodup : (t'.table.map (·.1)).Nodup)
    (hlookup : ∀ k', t'.lookup k' = if k = k' then some r else t.lookup k')
    (hothers : ∀ k', k ≠ k' → accepted' k' = accepted k')
    (hkept : ∃ first charged, accepted' k = first :: charged ∧ 0 ≤ first.1 ∧ r.Keeps capacity now charged) :
    t'.Keeps keys capacity now accepted' where
  initial := hinitial.trans h.initial
  nodup := hnodup
  known := fun k' hk' => by
    have hsome : t'.lookup k' ≠ none := fun hnone => lookup_eq_none.mp hnone hk'
    rw [hlookup] at hsome
    by_cases heq : k = k'
    · rw [← heq]
      exact hk
    · rw [if_neg heq] at hsome
      exact h.known k' (not_not.mp fun hnot => hsome (lookup_eq_none.mpr hnot))
  fresh := fun k' hnone => by
    rw [hlookup] at hnone
    by_cases heq : k = k'
    · simp [heq] at hnone
    · rw [if_neg heq] at hnone
      rw [hothers k' heq]
      exact h.fresh k' hnone
  kept := fun k' r' hr' => by
    rw [hlookup] at hr'
    by_cases heq : k = k'
    · rw [if_pos heq] at hr'
      cases hr'
      rw [← heq]
      exact hkept
    · rw [if_neg heq] at hr'
      rw [hothers k' heq]
      exact h.kept k' r' hr'

theorem Keeps.mem_keys {r' : Record} (hr : t.lookup k = some r') : k ∈ keys :=
  h.known k (not_not.mp fun hnot => by simp [lookup_eq_none.mpr hnot] at hr)

theorem Keeps.hasCapacity : (t.hasCapacity k now score).1.Keeps keys capacity now accepted := by
  rw [Lru.hasCapacity]
  cases hr : t.lookup k with
  | none => exact h
  | some r =>
    obtain ⟨first, charged, haccepted, hfirst, hkeeps⟩ := h.kept k r hr
    exact h.put (h.mem_keys hr) rfl (nodup_toBack h.nodup) lookup_toBack (fun _ _ => rfl)
      ⟨first, charged, haccepted, hfirst, hkeeps.clearOldEntries⟩

/-- A sender is refused when the last `interval` has no room for its score. -/
theorem Keeps.refused (hno : (t.hasCapacity k now score).2 = false) :
    capacity < inWindow (now - interval) (accepted k) + score := by
  rw [Lru.hasCapacity] at hno
  cases hr : t.lookup k with
  | none => simp [hr] at hno
  | some r =>
    rw [hr] at hno
    have hlt : (r.clearOldEntries now).remainingCapacity - score < 0 := Int.not_le.mp (of_decide_eq_false hno)
    obtain ⟨first, charged, haccepted, hfirst, hkeeps⟩ := h.kept k r hr
    have hbreaks := hkeeps.refused hlt
    have hsplit : inWindow (now - interval) (accepted k) = inWindow (now - interval) [first] + inWindow (now - interval) charged := by
      rw [haccepted]
      exact (inWindow_append : inWindow (now - interval) ([first] ++ charged) = _)
    have hnonneg : 0 ≤ inWindow (now - interval) [first] := by
      rw [inWindow_singleton]
      split_ifs
      · exact hfirst
      · exact Int.le_refl _
    omega

omit h

theorem room_of_hasCapacity (hyes : (t.hasCapacity k now score).2 = true) (hr : (t.hasCapacity k now score).1.lookup k = some r) :
    0 ≤ r.remainingCapacity - score := by
  rw [Lru.hasCapacity] at hyes hr
  cases hlookup : t.lookup k with
  | none =>
    rw [hlookup] at hr
    cases hlookup.symm.trans hr
  | some r' =>
    rw [hlookup] at hyes hr
    have hr' : (t.toBack k (r'.clearOldEntries now)).lookup k = some r := hr
    rw [lookup_toBack, if_pos rfl] at hr'
    cases hr'
    exact of_decide_eq_true hyes

include h

/-- There is room for the record of a new sender as long as there are no more senders than records. -/
theorem Keeps.length_lt (hk : k ∈ keys) (hnone : t.lookup k = none) : t.table.length < keys.card := by
  have hnodup : (k :: t.table.map (·.1)).Nodup := List.nodup_cons.mpr ⟨lookup_eq_none.mp hnone, h.nodup⟩
  have hsubset : (k :: t.table.map (·.1)).toFinset ⊆ keys := by
    intro k' hk'
    rcases List.mem_cons.mp (List.mem_toFinset.mp hk') with rfl | hk'
    · exact hk
    · exact h.known k' hk'
  have hcard := Finset.card_le_card hsubset
  rw [List.toFinset_card_of_nodup hnodup, List.length_cons, List.length_map] at hcard
  omega

theorem Keeps.add (hcapacity : 0 ≤ capacity) (hk : k ∈ keys)
    (hsize : keys.card ≤ maxSize) (hscore : 0 ≤ score) (hroom : ∀ r, t.lookup k = some r → 0 ≤ r.remainingCapacity - score)
    (hothers : ∀ k', k ≠ k' → accepted' k' = accepted k') (hself : accepted' k = accepted k ++ [(score, now)]) :
    (t.add k now score).1.Keeps keys capacity now accepted' := by
  rw [Lru.add]
  cases hr : t.lookup k with
  | some r =>
    obtain ⟨first, charged, haccepted, hfirst, hkeeps⟩ := h.kept k r hr
    refine h.put hk rfl (nodup_toBack h.nodup) lookup_toBack hothers
      ⟨first, charged ++ [(score, now)], ?_, hfirst, hkeeps.add hscore (hroom r hr)⟩
    rw [hself, haccepted, List.cons_append]
  | none =>
    have hlt : ¬ maxSize ≤ t.table.length := by
      have := h.length_lt hk hr
      omega
    change (Lru.mk ((if maxSize ≤ t.table.length then t.table.tail else t.table) ++ [(k, ⟨t.initialCapacity, []⟩)])
      t.initialCapacity).Keeps keys capacity now accepted'
    rw [if_neg hlt]
    refine h.put (r := ⟨t.initialCapacity, []⟩) hk rfl ?_ (fun k' => ?_) hothers ⟨(score, now), [], ?_, hscore, ?_⟩
    · rw [List.map_append, List.nodup_append]
      refine ⟨h.nodup, by simp, fun k' hk' k'' hk'' => ?_⟩
      have heq : k'' = k := by simpa using hk''
      rw [heq]
      exact fun hkk => lookup_eq_none.mp hr (hkk ▸ hk')
    · rw [lookup_append, lookup_single]
      by_cases heq : k = k'
      · rw [if_pos heq, if_pos heq, ← heq]
        change (t.lookup k).or _ = _
        rw [hr, Option.none_or]
      · rw [if_neg heq, if_neg heq, Option.or_none]
    · rw [hself, h.fresh k hr, List.nil_append]
    · rw [h.initial]
      exact Record.keeps_new hcapacity

omit h

theorem keeps_create : (create capacity : Lru K).Keeps keys capacity now fun _ => [] where
  initial := rfl
  nodup := List.nodup_nil
  known := by simp [create]
  fresh := fun _ _ => rfl
  kept := fun k r hr => by simp [create, lookup] at hr

end Table

end Lru

/-! ### The limiter -/

section Limiter

variable {K : Type} [DecidableEq Ip] [DecidableEq PeerId] [DecidableEq K] {t : T Ip PeerId} {c : Call Ip PeerId}
  {calls log : List (Call Ip PeerId)} {ips : Finset Ip} {ids : Finset PeerId} {keys : Finset K}
  {scores : K → List Elt} {table : Lru K} {es : List Elt} {k : K}

/-- What a call does. -/
inductive Adds (t : T Ip PeerId) (c : Call Ip PeerId) : T Ip PeerId × Answer → Prop where
  | localNode (hsender : c.sender = .localNode) : Adds t c (t, .withinCapacity)
  | noCapacityOfIp (ip : Ip) (id : PeerId) (hsender : c.sender = .remote ip id)
      (hip : (t.byIp.hasCapacity ip c.now c.score).2 = false) :
      Adds t c ({ t with byIp := (t.byIp.hasCapacity ip c.now c.score).1 }, .capacityExceeded)
  | noCapacityOfId (ip : Ip) (id : PeerId) (hsender : c.sender = .remote ip id)
      (hid : (t.byPeerId.hasCapacity id c.now c.score).2 = false) :
      Adds t c (⟨(t.byIp.hasCapacity ip c.now c.score).1, (t.byPeerId.hasCapacity id c.now c.score).1⟩, .capacityExceeded)
  | within (ip : Ip) (id : PeerId) (hsender : c.sender = .remote ip id)
      (hip : (t.byIp.hasCapacity ip c.now c.score).2 = true) (hid : (t.byPeerId.hasCapacity id c.now c.score).2 = true) :
      Adds t c (⟨((t.byIp.hasCapacity ip c.now c.score).1.add ip c.now c.score).1,
        ((t.byPeerId.hasCapacity id c.now c.score).1.add id c.now c.score).1⟩, .withinCapacity)

theorem adds (t : T Ip PeerId) (c : Call Ip PeerId) : Adds t c (add t c.sender c.now c.score) := by
  cases hsender : c.sender with
  | localNode => exact .localNode hsender
  | remote ip id =>
    rw [add]
    cases hip : (t.byIp.hasCapacity ip c.now c.score).2 with
    | false => simpa [hip] using Adds.noCapacityOfIp ip id hsender hip
    | true =>
      cases hid : (t.byPeerId.hasCapacity id c.now c.score).2 with
      | false => simpa [hip, hid] using Adds.noCapacityOfId ip id hsender hid
      | true => simpa [hip, hid] using Adds.within ip id hsender hip hid

/-- Both tables keep to the capacity for the accepted calls. -/
structure Keeps (ips : Finset Ip) (ids : Finset PeerId) (capacity now : Int) (log : List (Call Ip PeerId)) (t : T Ip PeerId) : Prop where
  byIp : t.byIp.Keeps ips capacity now fun ip => scoresOf Call.ip ip log
  byPeerId : t.byPeerId.Keeps ids capacity now fun id => scoresOf Call.peerId id log

omit [DecidableEq Ip] [DecidableEq PeerId] in
theorem scoresOf_append (key : Call Ip PeerId → Option K) (k : K) (calls log : List (Call Ip PeerId)) :
    scoresOf key k (calls ++ log) = scoresOf key k calls ++ scoresOf key k log := by
  rw [scoresOf, scoresOf, scoresOf, List.filter_append, List.map_append]

omit [DecidableEq Ip] [DecidableEq PeerId] in
theorem scoresOf_single (key : Call Ip PeerId → Option K) (k : K) (c : Call Ip PeerId) :
    scoresOf key k [c] = if key c = some k then [(c.score, c.now)] else [] := by
  by_cases hk : key c = some k
  · simp [scoresOf, hk]
  · simp [scoresOf, hk]

omit [DecidableEq Ip] [DecidableEq PeerId] in
theorem scoresOf_other (key : Call Ip PeerId → Option K) {k' : K} (hk : key c = some k) (hne : k ≠ k') :
    scoresOf key k' (log ++ [c]) = scoresOf key k' log := by
  have hother : key c ≠ some k' := fun h => hne (Option.some.inj (hk.symm.trans h))
  rw [scoresOf_append, scoresOf_single, if_neg hother, List.append_nil]

omit [DecidableEq Ip] [DecidableEq PeerId] in
theorem scoresOf_self (key : Call Ip PeerId → Option K) {k : K} (hk : key c = some k) :
    scoresOf key k (log ++ [c]) = scoresOf key k log ++ [(c.score, c.now)] := by
  rw [scoresOf_append, scoresOf_single, if_pos hk]

/-- What the calls of a run are: none is earlier than the one before it, no score is negative, and the senders are those
of `ips` and `ids`. -/
structure Proper (ips : Finset Ip) (ids : Finset PeerId) (now : Int) (c : Call Ip PeerId) : Prop where
  now_le : now ≤ c.now
  score : 0 ≤ c.score
  ip : ∀ ip, c.ip = some ip → ip ∈ ips
  peerId : ∀ id, c.peerId = some id → id ∈ ids

variable (h : Keeps ips ids capacity now log t)

include h in
/-- One call. -/
theorem Keeps.add (hcapacity : 0 ≤ capacity) (hips : ips.card ≤ maxSize) (hids : ids.card ≤ maxSize)
    (hc : Proper ips ids now c) : Keeps ips ids capacity c.now (log ++ accepted t c) (add t c.sender c.now c.score).1 := by
  have hbyIp := h.byIp.later hc.now_le
  have hbyPeerId := h.byPeerId.later hc.now_le
  have hadds := adds t c
  rw [accepted, answer]
  generalize RateLimiter.add t c.sender c.now c.score = result at hadds ⊢
  cases hadds with
  | localNode hsender =>
    have hip : c.ip = none := by rw [Call.ip, hsender]
    have hid : c.peerId = none := by rw [Call.peerId, hsender]
    constructor
    · simpa [scoresOf_append, scoresOf_single, hip] using hbyIp
    · simpa [scoresOf_append, scoresOf_single, hid] using hbyPeerId
  | noCapacityOfIp ip id hsender hip =>
    rw [if_neg (by simp), List.append_nil]
    exact ⟨hbyIp.hasCapacity, hbyPeerId⟩
  | noCapacityOfId ip id hsender hid =>
    rw [if_neg (by simp), List.append_nil]
    exact ⟨hbyIp.hasCapacity, hbyPeerId.hasCapacity⟩
  | within ip id hsender hip hid =>
    have hcip : c.ip = some ip := by rw [Call.ip, hsender]
    have hcid : c.peerId = some id := by rw [Call.peerId, hsender]
    rw [if_pos rfl]
    constructor
    · exact hbyIp.hasCapacity.add hcapacity (hc.ip ip hcip) hips hc.score (fun r hr => Lru.room_of_hasCapacity hip hr)
        (fun k' hne => scoresOf_other Call.ip hcip hne) (scoresOf_self Call.ip hcip)
    · exact hbyPeerId.hasCapacity.add hcapacity (hc.peerId id hcid) hids hc.score (fun r hr => Lru.room_of_hasCapacity hid hr)
        (fun k' hne => scoresOf_other Call.peerId hcid hne) (scoresOf_self Call.peerId hcid)

theorem Keeps.after {last : Int} (hcapacity : 0 ≤ capacity) (hips : ips.card ≤ maxSize) (hids : ids.card ≤ maxSize)
    (h : Keeps ips ids capacity now log t) (hsorted : calls.Pairwise (·.now ≤ ·.now)) (hcalls : ∀ c ∈ calls, Proper ips ids now c)
    (hlast : ∀ c ∈ calls, c.now ≤ last) (hnow : now ≤ last) :
    Keeps ips ids capacity last (log ++ acceptedCalls t calls) (after t calls) := by
  induction calls generalizing t log now with
  | nil =>
    rw [acceptedCalls, List.append_nil]
    exact ⟨h.byIp.later hnow, h.byPeerId.later hnow⟩
  | cons c calls ih =>
    obtain ⟨hle, hsorted⟩ := List.pairwise_cons.mp hsorted
    have hc := hcalls c List.mem_cons_self
    rw [acceptedCalls, ← List.append_assoc]
    refine ih (h.add hcapacity hips hids hc) hsorted (fun c' hc' => ?_) (fun c' hc' => hlast c' (List.mem_cons_of_mem _ hc'))
      (hlast c List.mem_cons_self)
    exact { hcalls c' (List.mem_cons_of_mem _ hc') with now_le := hle c' hc' }

theorem keeps_create {rate per : Nat} : Keeps ips ids (initialCapacity rate per) now [] (create rate per : T Ip PeerId) :=
  ⟨Lru.keeps_create, Lru.keeps_create⟩

/-! ### The limit -/

theorem head_zero {score now : Int} (hfirst : ∀ e, es.head? = some e → e.1 = 0) (hnew : es = [] → score = 0) :
    ∀ e, (es ++ [(score, now)]).head? = some e → e.1 = 0 := by
  intro e he
  cases es with
  | nil =>
    cases he
    exact hnew rfl
  | cons e' es => exact hfirst e he

/-- The first calls of all senders are for nothing. -/
structure FirstFree (log : List (Call Ip PeerId)) : Prop where
  byIp : ∀ ip e, (scoresOf Call.ip ip log).head? = some e → e.1 = 0
  byPeerId : ∀ id e, (scoresOf Call.peerId id log).head? = some e → e.1 = 0

omit [DecidableEq Ip] [DecidableEq PeerId] in
theorem first_zero {key : Call Ip PeerId → Option K}
    (hfree : ∀ k e, (scoresOf key k log).head? = some e → e.1 = 0) (h : table.Keeps keys capacity now (scoresOf key · log))
    (hk : key c = some k) (hknown : c.score ≠ 0 → (table.lookup k).isSome) :
    ∀ k' e, (scoresOf key k' (log ++ [c])).head? = some e → e.1 = 0 := by
  intro k'
  by_cases heq : k = k'
  · rw [← heq, scoresOf_self key hk]
    refine head_zero (hfree k) fun hnil => not_not.mp fun hne => ?_
    obtain ⟨r, hr⟩ := Option.isSome_iff_exists.mp (hknown hne)
    obtain ⟨first, charged, hscores, -⟩ := h.kept k r hr
    rw [hnil] at hscores
    cases hscores
  · rw [scoresOf_other key hk heq]
    exact hfree k'

include h in
theorem FirstFree.add (hfree : FirstFree log) (hcharges : Charges t c) :
    FirstFree (log ++ accepted t c) := by
  have hadds := adds t c
  rw [accepted, answer]
  generalize RateLimiter.add t c.sender c.now c.score = result at hadds ⊢
  cases hadds with
  | localNode hsender =>
    have hip : c.ip = none := by rw [Call.ip, hsender]
    have hid : c.peerId = none := by rw [Call.peerId, hsender]
    constructor
    · simpa [scoresOf_append, scoresOf_single, hip] using hfree.byIp
    · simpa [scoresOf_append, scoresOf_single, hid] using hfree.byPeerId
  | noCapacityOfIp ip id hsender hip =>
    rw [if_neg (by simp), List.append_nil]
    exact hfree
  | noCapacityOfId ip id hsender hid =>
    rw [if_neg (by simp), List.append_nil]
    exact hfree
  | within ip id hsender hip hid =>
    have hcharges : ChargesFor t c.now c.score (.remote ip id) := hsender ▸ hcharges
    have hknown := fun hne => hcharges hne hip hid
    rw [if_pos rfl]
    constructor
    · exact first_zero hfree.byIp h.byIp (by rw [Call.ip, hsender]) fun hne => (hknown hne).1
    · exact first_zero hfree.byPeerId h.byPeerId (by rw [Call.peerId, hsender]) fun hne => (hknown hne).2

theorem FirstFree.after (hcapacity : 0 ≤ capacity) (hips : ips.card ≤ maxSize) (hids : ids.card ≤ maxSize) (hfree : FirstFree log)
    (h : Keeps ips ids capacity now log t) (hsorted : calls.Pairwise (·.now ≤ ·.now)) (hcalls : ∀ c ∈ calls, Proper ips ids now c)
    (hcharged : AllCharged t calls) : FirstFree (log ++ acceptedCalls t calls) := by
  induction calls generalizing t log now with
  | nil =>
    rw [acceptedCalls, List.append_nil]
    exact hfree
  | cons c calls ih =>
    obtain ⟨hle, hsorted⟩ := List.pairwise_cons.mp hsorted
    have hc := hcalls c List.mem_cons_self
    rw [acceptedCalls, ← List.append_assoc]
    refine ih (hfree.add h hcharged.1) (h.add hcapacity hips hids hc) hsorted (fun c' hc' => ?_) hcharged.2
    exact { hcalls c' (List.mem_cons_of_mem _ hc') with now_le := hle c' hc' }

theorem Lru.Keeps.tail_le (h : table.Keeps keys capacity now scores)
    (hcapacity : 0 ≤ capacity) (k : K) (start : Int) : inWindow start (scores k).tail ≤ capacity := by
  cases hr : table.lookup k with
  | none =>
    rw [h.fresh k hr]
    exact hcapacity
  | some r =>
    obtain ⟨first, charged, hscores, -, hkeeps⟩ := h.kept k r hr
    rw [hscores]
    exact hkeeps.bounded start

theorem inWindow_le_of_head {start : Int} (hhead : ∀ e, es.head? = some e → e.1 = 0)
    (htail : inWindow start es.tail ≤ capacity) : inWindow start es ≤ capacity := by
  cases es with
  | nil => exact htail
  | cons e es =>
    have hzero : inWindow start [e] = 0 := by
      rw [inWindow_singleton, hhead e rfl]
      exact ite_self 0
    have hsplit : inWindow start (e :: es) = inWindow start [e] + inWindow start es :=
      (inWindow_append : inWindow start ([e] ++ es) = _)
    rw [hsplit, hzero, Int.zero_add]
    exact htail

theorem Lru.Keeps.remaining (h : table.Keeps keys capacity now scores) :
    ∀ p ∈ table.table, p.2.remainingCapacity = capacity - (p.2.elts.map (·.1)).sum := by
  intro p hp
  obtain ⟨first, charged, -, -, hkeeps⟩ := h.kept p.1 p.2 (Lru.lookup_of_mem table.initialCapacity h.nodup hp)
  exact hkeeps.remaining

include h in
theorem Keeps.refused (hle : now ≤ c.now) (hno : answer t c = .capacityExceeded) :
    Breaks capacity log c := by
  have hinterval : c.now - interval ≤ c.now := by
    rw [interval]
    omega
  refine ⟨c.now - interval, hinterval, by omega, ?_⟩
  have hadds := adds t c
  rw [answer] at hno
  generalize RateLimiter.add t c.sender c.now c.score = result at hadds hno
  cases hadds with
  | localNode hsender => cases hno
  | noCapacityOfIp ip id hsender hip => exact Or.inl ⟨ip, by rw [Call.ip, hsender], (h.byIp.later hle).refused hip⟩
  | noCapacityOfId ip id hsender hid => exact Or.inr ⟨id, by rw [Call.peerId, hsender], (h.byPeerId.later hle).refused hid⟩
  | within ip id hsender hip hid => cases hno

theorem initialCapacity_nonneg (rate per : Nat) : 0 ≤ initialCapacity rate per := Int.natCast_nonneg _

theorem exists_proper {calls : List (Call Ip PeerId)} (hscores : ∀ c ∈ calls, 0 ≤ c.score) :
    ∃ now, ∀ c ∈ calls, Proper (calls.filterMap Call.ip).toFinset (calls.filterMap Call.peerId).toFinset now c := by
  obtain ⟨now, hnow⟩ := (calls.map (·.now)).toFinset.bddBelow
  refine ⟨now, fun c hc => ⟨hnow (List.mem_toFinset.mpr (List.mem_map_of_mem hc)), hscores c hc, fun ip hip => ?_, fun id hid => ?_⟩⟩
  · exact List.mem_toFinset.mpr (List.mem_filterMap.mpr ⟨c, hc, hip⟩)
  · exact List.mem_toFinset.mpr (List.mem_filterMap.mpr ⟨c, hc, hid⟩)

/-- The records add up, calls are only refused when they would break the limit, and what each sender is charged keeps to it;
so do all accepted scores when all of them are charged. -/
theorem limit_of_charged (rate per : Nat) (calls : List (Call Ip PeerId)) (hsorted : calls.Pairwise (·.now ≤ ·.now))
    (hscores : ∀ c ∈ calls, 0 ≤ c.score) (hips : (calls.filterMap Call.ip).toFinset.card ≤ maxSize)
    (hids : (calls.filterMap Call.peerId).toFinset.card ≤ maxSize) :
    Tallies (initialCapacity rate per) (after (create rate per) calls) ∧
      (∀ before c later, calls = before ++ c :: later → answer (after (create rate per) before) c = .capacityExceeded →
        Breaks (initialCapacity rate per) (acceptedCalls (create rate per) before) c) ∧
      BoundedAfterFirst (initialCapacity rate per) (acceptedCalls (create rate per) calls) ∧
      (AllCharged (create rate per) calls → Bounded (initialCapacity rate per) (acceptedCalls (create rate per) calls)) := by
  obtain ⟨now, hcalls⟩ := exists_proper hscores
  have hcapacity := initialCapacity_nonneg rate per
  obtain ⟨last, hle⟩ := (insert now (calls.map (·.now)).toFinset).bddAbove
  have hlast : ∀ c ∈ calls, c.now ≤ last := fun c hc =>
    hle (Finset.mem_insert_of_mem (List.mem_toFinset.mpr (List.mem_map_of_mem hc)))
  have hcreate : Keeps (calls.filterMap Call.ip).toFinset (calls.filterMap Call.peerId).toFinset (initialCapacity rate per) now []
      (create rate per : T Ip PeerId) := keeps_create
  have hkeeps := hcreate.after hcapacity hips hids hsorted hcalls hlast (hle (Finset.mem_insert_self _ _))
  rw [List.nil_append] at hkeeps
  have hafterFirst : BoundedAfterFirst (initialCapacity rate per) (acceptedCalls (create rate per) calls) :=
    ⟨hkeeps.byIp.tail_le hcapacity, hkeeps.byPeerId.tail_le hcapacity⟩
  refine ⟨⟨hkeeps.byIp.remaining, hkeeps.byPeerId.remaining⟩, ?_, hafterFirst, fun hcharged => ?_⟩
  · intro before c later hcut hno
    have hmem : ∀ c' ∈ before, c' ∈ calls := fun c' hc' => by simp [hcut, hc']
    have hc := hcalls c (by simp [hcut])
    rw [hcut] at hsorted
    obtain ⟨hsorted, -, hbefore⟩ := List.pairwise_append.mp hsorted
    have hkeeps := hcreate.after hcapacity hips hids hsorted (fun c' hc' => hcalls c' (hmem c' hc'))
      (fun c' hc' => hbefore c' hc' c List.mem_cons_self) hc.now_le
    exact hkeeps.refused (Int.le_refl _) hno
  · have hfree := FirstFree.after hcapacity hips hids ⟨by simp [scoresOf], by simp [scoresOf]⟩ hcreate hsorted hcalls hcharged
    exact ⟨fun ip start => inWindow_le_of_head (hfree.byIp ip) (hafterFirst.1 ip start),
      fun id start => inWindow_le_of_head (hfree.byPeerId id) (hafterFirst.2 id start)⟩

/-- A sender that makes itself known, has one score accepted, and the next one refused until the first is old. -/
theorem limit_of_charged_one : let calls : List (Call Nat Nat) :=
      [⟨.remote 1 7, 0, 0⟩, ⟨.remote 1 7, 1000, 2⟩, ⟨.localNode, 1500, 9⟩, ⟨.remote 1 7, 2000, 1⟩, ⟨.remote 1 7, 301001, 1⟩]
    acceptedCalls (create 2 300000) calls = [⟨.remote 1 7, 0, 0⟩, ⟨.remote 1 7, 1000, 2⟩, ⟨.localNode, 1500, 9⟩, ⟨.remote 1 7, 301001, 1⟩] ∧
      Bounded (initialCapacity 2 300000) (acceptedCalls (create 2 300000) calls) :=
  ⟨by decide, (limit_of_charged 2 300000 _ (by decide) (by decide) (by decide) (by decide)).2.2.2 (by decide)⟩

/-- The first call of a sender is accepted with any score. -/
theorem first_unlimited : let calls : List (Call Nat Nat) := [⟨.remote 1 7, 0, 5⟩]
    (calls.Pairwise (·.now ≤ ·.now) ∧ (∀ c ∈ calls, 0 ≤ c.score) ∧ (calls.filterMap Call.ip).toFinset.card ≤ maxSize ∧
        (calls.filterMap Call.peerId).toFinset.card ≤ maxSize) ∧
      ¬ Bounded (initialCapacity 2 300000) (acceptedCalls (create 2 300000) calls) :=
  ⟨by decide, fun h => absurd (h.1 1 0) (by decide)⟩

end Limiter

end MinaProtocol.RateLimiter
