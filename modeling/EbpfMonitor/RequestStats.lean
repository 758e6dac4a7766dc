import EbpfMonitor.Lib.Decimal
import EbpfMonitor.Lib.SharedMutex
import EbpfMonitor.Lib.TableSum
import Mathlib.Algebra.Order.BigOperators.Group.List
import Mathlib.Algebra.Order.Group.Nat

/-! # `RequestStats`

The embedding of `RouteStats` and `RequestStats` of `src/http/request_stats.h`: counters and
latencies for each route, behind a `std::shared_mutex`.  `record` works on the table under
`unique_lock`, `snapshot`, `total_requests` and `total_errors` walk it under `shared_lock`.

`locks` gives the sections of these functions to `SharedMutex`, statement by statement, so that
a schedule is any interleaving of any number of threads.  The order in which a reading function
walks the `std::unordered_map` is part of the call: any order of its routes.

`Summarises cs st` says what the entry `st` of a route has to be when `cs` are the calls for that
route.  `requestStats_exact` is the result for every schedule. -/

namespace EbpfMonitor

structure RouteStats where
  requests : BitVec 64 := 0
  errors : BitVec 64 := 0
  totalUs : BitVec 64 := 0
  minUs : BitVec 64 := BitVec.allOnes 64
  maxUs : BitVec 64 := 0
deriving DecidableEq

/-- The arguments of a call of `record`. -/
structure Recording where
  route : Text
  elapsedUs : BitVec 64
  ok : Bool
deriving DecidableEq

/-- `m_stats`. -/
structure RequestStats where
  stats : AList (fun _ : Text => RouteStats)

namespace RequestStats

def empty : RequestStats := ⟨∅⟩

/-! ### The writing section -/

/-- `auto& s = m_stats[route]`. -/
def touch (route : Text) (r : RequestStats) : RequestStats :=
  match r.stats.lookup route with
  | some _ => r
  | none => ⟨r.stats.insert route {}⟩

/-- A statement on the entry `s` of the route. -/
def onEntry (route : Text) (f : RouteStats → RouteStats) (r : RequestStats) : RequestStats :=
  match r.stats.lookup route with
  | some s => ⟨r.stats.insert route (f s)⟩
  | none => r

/-- The statements of `record`. -/
def recordStatements (c : Recording) : List (RequestStats → RequestStats) :=
  [touch c.route,
    onEntry c.route (fun s => { s with requests := s.requests + 1 }),
    onEntry c.route (fun s => { s with totalUs := s.totalUs + c.elapsedUs }),
    onEntry c.route (fun s => { s with minUs := if c.elapsedUs < s.minUs then c.elapsedUs else s.minUs }),
    onEntry c.route (fun s => { s with maxUs := if s.maxUs < c.elapsedUs then c.elapsedUs else s.maxUs }),
    onEntry c.route (fun s => if c.ok then s else { s with errors := s.errors + 1 })]

def record (r : RequestStats) (c : Recording) : RequestStats :=
  (recordStatements c).foldl (fun r f => f r) r

/-- The statistics after the calls `cs`. -/
def recordAll (cs : List Recording) : RequestStats := cs.foldl record empty

theorem recordAll_concat (cs : List Recording) (c : Recording) :
    recordAll (cs ++ [c]) = (recordAll cs).record c := by
  rw [recordAll, List.foldl_append, List.foldl_cons, List.foldl_nil, recordAll]

/-! ### The reading sections -/

inductive Query where
  | snapshot
  | totalRequests
  | totalErrors
deriving DecidableEq

/-- A reading call, with the order in which it walks the table. -/
structure Reading where
  query : Query
  walk : List Text

/-- The local variables of the reading functions: the copy that `snapshot` returns and the sum `n`
of the other two. -/
structure Locals where
  copy : AList (fun _ : Text => RouteStats) := ∅
  n : BitVec 64 := 0

/-- What a reading function does with the entry of one route. -/
def visit (q : Query) (route : Text) (r : RequestStats) (l : Locals) : Locals :=
  match r.stats.lookup route with
  | none => l
  | some s =>
      match q with
      | .snapshot => { l with copy := l.copy.insert route s }
      | .totalRequests => { l with n := l.n + s.requests }
      | .totalErrors => { l with n := l.n + s.errors }

/-- What `m_mtx` protects. -/
def locks : SharedMutex.Sections RequestStats Recording Reading Locals where
  writes := recordStatements
  start _ := {}
  reads q := q.walk.map (visit q.query)
  admits q r := q.walk.isPerm r.stats.keys

def snapshot (r : RequestStats) (walk : List Text) : AList (fun _ : Text => RouteStats) :=
  (locks.answer ⟨.snapshot, walk⟩ r).copy

def totalRequests (r : RequestStats) (walk : List Text) : BitVec 64 :=
  (locks.answer ⟨.totalRequests, walk⟩ r).n

def totalErrors (r : RequestStats) (walk : List Text) : BitVec 64 :=
  (locks.answer ⟨.totalErrors, walk⟩ r).n

end RequestStats

/-! ### One call -/

/-- What a call of `record` makes of the entry of its route. -/
def RouteStats.add (s : RouteStats) (c : Recording) : RouteStats where
  requests := s.requests + 1
  errors := if c.ok then s.errors else s.errors + 1
  totalUs := s.totalUs + c.elapsedUs
  minUs := if c.elapsedUs < s.minUs then c.elapsedUs else s.minUs
  maxUs := if s.maxUs < c.elapsedUs then c.elapsedUs else s.maxUs

namespace RequestStats

theorem onEntry_touch (route : Text) (f : RouteStats → RouteStats) (r : RequestStats) :
    onEntry route f (touch route r) = ⟨r.stats.insert route (f ((r.stats.lookup route).getD {}))⟩ := by
  unfold touch
  cases h : r.stats.lookup route with
  | none =>
      simp only [onEntry, AList.lookup_insert, AList.insert_insert]
      rfl
  | some s =>
      simp only [onEntry, h]
      rfl

theorem onEntry_insert (route : Text) (f : RouteStats → RouteStats) (t : AList (fun _ : Text => RouteStats))
    (s : RouteStats) : onEntry route f ⟨t.insert route s⟩ = ⟨t.insert route (f s)⟩ := by
  simp only [onEntry, AList.lookup_insert, AList.insert_insert]

/-- The statements of `record` together aggregate the call under its route. -/
theorem stats_record (r : RequestStats) (c : Recording) :
    (r.record c).stats = GroupFold.record Recording.route {} RouteStats.add r.stats c := by
  simp only [record, recordStatements, List.foldl_cons, List.foldl_nil]
  rw [onEntry_touch, onEntry_insert, onEntry_insert, onEntry_insert, onEntry_insert]
  unfold GroupFold.record RouteStats.add
  cases c.ok <;> rfl

theorem stats_recordAll (cs : List Recording) :
    (recordAll cs).stats = cs.foldl (GroupFold.record Recording.route {} RouteStats.add) ∅ :=
  (List.foldl_hom stats (fun r c => (stats_record r c).symm)).symm

end RequestStats

/-! ### The entry of a route -/

/-- The calls for the route. -/
def callsOf (route : Text) (cs : List Recording) : List Recording := GroupFold.ofKey Recording.route route cs

/-- One for a call that failed. -/
def Recording.errorsAdded (c : Recording) : ℕ := if c.ok then 0 else 1

namespace RouteStats

theorem errors_add (s : RouteStats) (c : Recording) :
    (s.add c).errors.toNat ≡ s.errors.toNat + c.errorsAdded [MOD 2 ^ 64] := by
  unfold add Recording.errorsAdded
  cases c.ok with
  | true => exact Nat.ModEq.refl _
  | false => exact Nat.mod_modEq _ _

theorem requests_add (s : RouteStats) (c : Recording) :
    (s.add c).requests.toNat ≡ s.requests.toNat + 1 [MOD 2 ^ 64] :=
  Nat.mod_modEq _ _

theorem totalUs_add (s : RouteStats) (c : Recording) :
    (s.add c).totalUs.toNat ≡ s.totalUs.toNat + c.elapsedUs.toNat [MOD 2 ^ 64] :=
  Nat.mod_modEq _ _

theorem minUs_add (s : RouteStats) (c : Recording) :
    (s.add c).minUs.toNat = min s.minUs.toNat c.elapsedUs.toNat := by
  unfold add
  simp only [BitVec.lt_def]
  split_ifs <;> omega

theorem maxUs_add (s : RouteStats) (c : Recording) :
    (s.add c).maxUs.toNat = max s.maxUs.toNat c.elapsedUs.toNat := by
  unfold add
  simp only [BitVec.lt_def]
  split_ifs <;> omega

end RouteStats

/-- The entry of a route against the calls for it. -/
structure Summarises (cs : List Recording) (st : RouteStats) : Prop where
  requests : st.requests.toNat = cs.length % 2 ^ 64
  errors : st.errors.toNat = cs.countP (fun c => !c.ok) % 2 ^ 64
  totalUs : st.totalUs.toNat = (cs.map (·.elapsedUs.toNat)).sum % 2 ^ 64
  minUs : IsLeast {t | ∃ c ∈ cs, c.elapsedUs.toNat = t} st.minUs.toNat
  maxUs : IsGreatest {t | ∃ c ∈ cs, c.elapsedUs.toNat = t} st.maxUs.toNat

theorem sum_map_errorsAdded (cs : List Recording) :
    (cs.map Recording.errorsAdded).sum = cs.countP (fun c => !c.ok) := by
  induction cs with
  | nil => rfl
  | cons c cs ih =>
      rw [List.map_cons, List.sum_cons, ih, List.countP_cons, Nat.add_comm, Recording.errorsAdded]
      cases c.ok <;> rfl

theorem summarises_foldl {cs : List Recording} (h : cs ≠ []) :
    Summarises cs (cs.foldl RouteStats.add {}) where
  requests := by
    rw [GroupFold.foldl_counter (f := RouteStats.requests) (g := fun _ => 1) rfl RouteStats.requests_add]
    simp
  errors := by
    rw [GroupFold.foldl_counter (f := RouteStats.errors) rfl RouteStats.errors_add, sum_map_errorsAdded]
  totalUs := GroupFold.foldl_counter (f := RouteStats.totalUs) rfl RouteStats.totalUs_add cs
  minUs :=
    GroupFold.foldl_isLeast_of_le (f := fun s : RouteStats => s.minUs.toNat) RouteStats.minUs_add h
      (fun c _ => Nat.le_pred_of_lt c.elapsedUs.isLt)
  maxUs := by
    -- the maximum is the minimum of the reversed order
    obtain ⟨hmem, hupper⟩ := GroupFold.foldl_isLeast_of_le (M := ℕᵒᵈ)
      (f := fun s : RouteStats => OrderDual.toDual s.maxUs.toNat) RouteStats.maxUs_add h
      (v := {}) (fun c _ => Nat.zero_le c.elapsedUs.toNat)
    exact ⟨hmem, hupper⟩

namespace Summarises

variable {cs cs' : List Recording} {st st' : RouteStats}

/-- The calls determine the entry, in whatever order they came. -/
theorem unique (h : Summarises cs st) (h' : Summarises cs' st') (hperm : cs.Perm cs') : st = st' := by
  have hset : {t | ∃ c ∈ cs, c.elapsedUs.toNat = t} = {t | ∃ c ∈ cs', c.elapsedUs.toNat = t} := by
    ext t
    simp only [Set.mem_ofPred_eq, hperm.mem_iff]
  have hmin := h.minUs
  have hmax := h.maxUs
  rw [hset] at hmin hmax
  have hrequests : st.requests = st'.requests :=
    BitVec.eq_of_toNat_eq (by rw [h.requests, h'.requests, hperm.length_eq])
  have herrors : st.errors = st'.errors :=
    BitVec.eq_of_toNat_eq (by rw [h.errors, h'.errors, hperm.countP_eq])
  have htotal : st.totalUs = st'.totalUs :=
    BitVec.eq_of_toNat_eq (by rw [h.totalUs, h'.totalUs, (hperm.map _).sum_eq])
  have hminUs : st.minUs = st'.minUs := BitVec.eq_of_toNat_eq (hmin.unique h'.minUs)
  have hmaxUs : st.maxUs = st'.maxUs := BitVec.eq_of_toNat_eq (hmax.unique h'.maxUs)
  cases st
  cases st'
  congr

theorem perm (h : Summarises cs st) (hperm : cs.Perm cs') : Summarises cs' st where
  requests := by rw [h.requests, hperm.length_eq]
  errors := by rw [h.errors, hperm.countP_eq]
  totalUs := by rw [h.totalUs, (hperm.map _).sum_eq]
  minUs := by
    have hmin := h.minUs
    simp only [hperm.mem_iff] at hmin
    exact hmin
  maxUs := by
    have hmax := h.maxUs
    simp only [hperm.mem_iff] at hmax
    exact hmax

/-- The counters of calls are exact as long as the number of calls fits. -/
theorem counts (h : Summarises cs st) (hlt : cs.length < 2 ^ 64) :
    st.requests.toNat = cs.length ∧ st.errors.toNat = cs.countP (fun c => !c.ok) ∧
      st.errors.toNat ≤ st.requests.toNat := by
  have hle : cs.countP (fun c => !c.ok) ≤ cs.length := List.countP_le_length
  have hrequests := h.requests
  have herrors := h.errors
  rw [Nat.mod_eq_of_lt hlt] at hrequests
  rw [Nat.mod_eq_of_lt (Nat.lt_of_le_of_lt hle hlt)] at herrors
  exact ⟨hrequests, herrors, by rw [hrequests, herrors]; exact hle⟩

/-- The total lies between the extremes times the number of calls. -/
theorem bounds (h : Summarises cs st) (hlt : cs.length < 2 ^ 64)
    (hsum : (cs.map (·.elapsedUs.toNat)).sum < 2 ^ 64) :
    st.minUs.toNat * st.requests.toNat ≤ st.totalUs.toNat ∧
      st.totalUs.toNat ≤ st.maxUs.toNat * st.requests.toNat := by
  rw [(h.counts hlt).1, h.totalUs, Nat.mod_eq_of_lt hsum, Nat.mul_comm, Nat.mul_comm st.maxUs.toNat]
  have hlen : (cs.map (·.elapsedUs.toNat)).length = cs.length := List.length_map _
  constructor
  · have hlow := List.card_nsmul_le_sum (cs.map (·.elapsedUs.toNat)) st.minUs.toNat
      (fun t ht => h.minUs.2 (List.mem_map.mp ht))
    rw [hlen] at hlow
    exact hlow
  · have hup := List.sum_le_card_nsmul (cs.map (·.elapsedUs.toNat)) st.maxUs.toNat
      (fun t ht => h.maxUs.2 (List.mem_map.mp ht))
    rw [hlen] at hup
    exact hup

end Summarises

/-- The order of the calls for a route does not matter. -/
theorem foldl_add_perm {cs cs' : List Recording} (hne : cs ≠ []) (h : cs.Perm cs') :
    cs.foldl RouteStats.add {} = cs'.foldl RouteStats.add {} := by
  have hne' : cs' ≠ [] := fun heq => hne (List.perm_nil.mp (heq ▸ h))
  exact (summarises_foldl hne).unique (summarises_foldl hne') h

namespace RequestStats

variable {cs cs' : List Recording}

theorem lookup_recordAll (cs : List Recording) (route : Text) :
    (recordAll cs).stats.lookup route =
      if callsOf route cs = [] then none else some ((callsOf route cs).foldl RouteStats.add {}) := by
  rw [stats_recordAll]
  exact GroupFold.lookup_foldl_record_empty _ _ _ cs route

theorem isSome_lookup_recordAll (cs : List Recording) (route : Text) :
    ((recordAll cs).stats.lookup route).isSome = true ↔ ∃ c ∈ cs, c.route = route := by
  have hiff : callsOf route cs ≠ [] ↔ ∃ c ∈ cs, c.route = route := GroupFold.ofKey_ne_nil _
  rw [← hiff, lookup_recordAll]
  split_ifs with hnone
  · simp [hnone]
  · simp [hnone]

theorem summarises_of_lookup {route : Text} {st : RouteStats}
    (h : (recordAll cs).stats.lookup route = some st) : Summarises (callsOf route cs) st := by
  rw [lookup_recordAll] at h
  split_ifs at h with hnone
  exact Option.some.inj h ▸ summarises_foldl hnone

/-- The statistics do not depend on the order of the calls. -/
theorem lookup_recordAll_perm (h : cs.Perm cs') (route : Text) :
    (recordAll cs).stats.lookup route = (recordAll cs').stats.lookup route := by
  have hmap := GroupFold.map_lookup_foldl_record_perm (f := id) Recording.route ({} : RouteStats)
    RouteStats.add (fun _ _ hne hperm => foldl_add_perm hne hperm) h route
  rw [Option.map_id_fun, id, id, ← stats_recordAll, ← stats_recordAll] at hmap
  exact hmap

/-! ### What the reading functions return -/

section walks

variable {r : RequestStats} {walk : List Text}

theorem answer_eq_foldl (q : Query) (walk : List Text) (r : RequestStats) :
    locks.answer ⟨q, walk⟩ r = walk.foldl (fun l route => visit q route r l) {} :=
  List.foldl_map

/-- A walk of the table that adds up one of its counters. -/
theorem answer_n_modEq {q : Query} {f : RouteStats → BitVec 64}
    (hvisit : ∀ route l, (visit q route r l).n = l.n + (r.stats.lookup route).elim 0 f)
    (hwalk : walk.Perm r.stats.keys) :
    (locks.answer ⟨q, walk⟩ r).n.toNat ≡ TableSum.total (fun s => (f s).toNat) r.stats [MOD 2 ^ 64] := by
  have hadd : ∀ (l : Locals) (route : Text), (visit q route r l).n.toNat ≡
      l.n.toNat + TableSum.share (fun s => (f s).toNat) r.stats route [MOD 2 ^ 64] := by
    intro l route
    rw [hvisit, TableSum.share]
    cases r.stats.lookup route <;> exact Nat.mod_modEq _ _
  have hsum := GroupFold.foldl_modEq (f := fun l : Locals => l.n.toNat) hadd walk {}
  rw [← answer_eq_foldl, TableSum.sum_share _ _ hwalk] at hsum
  exact hsum.trans (by rw [show ({} : Locals).n.toNat = 0 from rfl, Nat.zero_add])

theorem visit_n (route : Text) (l : Locals) :
    (visit .totalRequests route r l).n = l.n + (r.stats.lookup route).elim 0 RouteStats.requests ∧
      (visit .totalErrors route r l).n = l.n + (r.stats.lookup route).elim 0 RouteStats.errors := by
  unfold visit
  cases r.stats.lookup route with
  | none => exact ⟨(BitVec.add_zero l.n).symm, (BitVec.add_zero l.n).symm⟩
  | some s => exact ⟨rfl, rfl⟩

theorem lookup_foldl_visit_snapshot (route : Text) (l : Locals) :
    (walk.foldl (fun l route => visit .snapshot route r l) l).copy.lookup route =
      if route ∈ walk then (r.stats.lookup route).or (l.copy.lookup route) else l.copy.lookup route := by
  induction walk generalizing l with
  | nil => rfl
  | cons k walk ih =>
      rw [List.foldl_cons, ih]
      by_cases hk : route = k
      · subst hk
        unfold visit
        cases h : r.stats.lookup route with
        | none => simp
        | some s => simp
      · have hcopy : (visit .snapshot k r l).copy.lookup route = l.copy.lookup route := by
          unfold visit
          cases r.stats.lookup k with
          | none => rfl
          | some s => exact AList.lookup_insert_ne hk
        rw [hcopy]
        simp [hk]

/-- `snapshot` copies the table. -/
theorem lookup_snapshot (hwalk : walk.Perm r.stats.keys) (route : Text) :
    (r.snapshot walk).lookup route = r.stats.lookup route := by
  rw [snapshot, answer_eq_foldl, lookup_foldl_visit_snapshot]
  by_cases hmem : route ∈ walk
  · rw [if_pos hmem]
    exact Option.or_none
  · have hnone : r.stats.lookup route = none := by
      rw [AList.lookup_eq_none, AList.mem_keys, ← hwalk.mem_iff]
      exact hmem
    rw [if_neg hmem, hnone]
    rfl

/-- A counter to which every call adds a number, added up over the table. -/
theorem answer_n_recordAll {q : Query} {f : RouteStats → BitVec 64} {g : Recording → ℕ}
    (hvisit : ∀ route l, (visit q route (recordAll cs) l).n =
      l.n + ((recordAll cs).stats.lookup route).elim 0 f)
    (h₀ : (f {}).toNat = 0) (hadd : ∀ s c, (f (s.add c)).toNat ≡ (f s).toNat + g c [MOD 2 ^ 64])
    (hwalk : walk.Perm (recordAll cs).stats.keys) :
    (locks.answer ⟨q, walk⟩ (recordAll cs)).n.toNat = (cs.map g).sum % 2 ^ 64 := by
  have hsum : TableSum.total (fun s : RouteStats => (f s).toNat) (recordAll cs).stats ≡
      0 + (cs.map g).sum [MOD 2 ^ 64] := by
    rw [stats_recordAll]
    exact TableSum.total_foldl_modEq (f := fun s : RouteStats => (f s).toNat) h₀ hadd cs ∅
  have hmod := (answer_n_modEq hvisit hwalk).trans hsum
  rw [Nat.ModEq, Nat.mod_eq_of_lt (BitVec.isLt _), Nat.zero_add] at hmod
  exact hmod

theorem totalRequests_recordAll (hwalk : walk.Perm (recordAll cs).stats.keys) :
    ((recordAll cs).totalRequests walk).toNat = cs.length % 2 ^ 64 := by
  have hsum := answer_n_recordAll (fun route l => (visit_n route l).1) rfl RouteStats.requests_add hwalk
  rw [totalRequests, hsum]
  simp

theorem totalErrors_recordAll (hwalk : walk.Perm (recordAll cs).stats.keys) :
    ((recordAll cs).totalErrors walk).toNat = cs.countP (fun c => !c.ok) % 2 ^ 64 := by
  have hsum := answer_n_recordAll (fun route l => (visit_n route l).2) rfl RouteStats.errors_add hwalk
  rw [totalErrors, hsum, sum_map_errorsAdded]

end walks

/-! ### Every schedule -/

/-- What a reading call returns, against the calls of `record` it is about. -/
def Reports (cs : List Recording) : Query → Locals → Prop
  | .snapshot, l => ∀ route, l.copy.lookup route = (recordAll cs).stats.lookup route
  | .totalRequests, l => l.n.toNat = cs.length % 2 ^ 64
  | .totalErrors, l => l.n.toNat = cs.countP (fun c => !c.ok) % 2 ^ 64

theorem reports_answer {q : Reading} (h : locks.admits q (recordAll cs) = true) :
    Reports cs q.query (locks.answer q (recordAll cs)) := by
  obtain ⟨query, walk⟩ := q
  have hwalk : walk.Perm (recordAll cs).stats.keys := List.isPerm_iff.mp h
  cases query with
  | snapshot => exact lookup_snapshot hwalk
  | totalRequests => exact totalRequests_recordAll hwalk
  | totalErrors => exact totalErrors_recordAll hwalk

end RequestStats

open SharedMutex RequestStats

/-- **The request statistics are exact and do not depend on the order of the calls.**  Whatever the
threads do, when the calls of `record` that took the lock are `cs`, in some order, and no call of
`record` is under way:

* the table has the routes of `cs`, the entry of a route summarises the calls for it, and every
  other schedule with these calls leads to the same table;
* a reading function that has returned reports the calls that had held the lock before it;
* the two sums are the numbers of all calls and of the failed ones;
* as long as the number of calls for a route fits in 64 bits, its counters are exact, `errors` is at
  most `requests`, and if the sum of its times fits as well, it lies between the extremes times
  `requests`. -/
theorem requestStats_exact {as : List (Action Recording Reading)}
    {s : State RequestStats Recording Reading Locals} {cs : List Recording}
    (h : Runs.run locks.step (State.init RequestStats.empty) as = some s) (hw : s.writer = none)
    (hcs : s.order.Perm cs) :
    (∀ route, (s.data.stats.lookup route).isSome = true ↔ ∃ c ∈ cs, c.route = route) ∧
    (∀ route st, s.data.stats.lookup route = some st → Summarises (callsOf route cs) st) ∧
    (∀ as' s', Runs.run locks.step (State.init RequestStats.empty) as' = some s' → s'.writer = none →
      s'.order.Perm cs → ∀ route, s'.data.stats.lookup route = s.data.stats.lookup route) ∧
    (∀ f ∈ s.results, f.seen ≤ s.order.length ∧ Reports (s.order.take f.seen) f.call.query f.value) ∧
    (∀ walk : List Text, walk.Perm s.data.stats.keys →
      (s.data.totalRequests walk).toNat = cs.length % 2 ^ 64 ∧
      (s.data.totalErrors walk).toNat = cs.countP (fun c => !c.ok) % 2 ^ 64) ∧
    ∀ route st, s.data.stats.lookup route = some st → (callsOf route cs).length < 2 ^ 64 →
      st.requests.toNat = (callsOf route cs).length ∧
      st.errors.toNat = (callsOf route cs).countP (fun c => !c.ok) ∧
      st.errors.toNat ≤ st.requests.toNat ∧
      (((callsOf route cs).map (·.elapsedUs.toNat)).sum < 2 ^ 64 →
        st.minUs.toNat * st.requests.toNat ≤ st.totalUs.toNat ∧
          st.totalUs.toNat ≤ st.maxUs.toNat * st.requests.toNat) := by
  have hdata : s.data = recordAll s.order := State.data_eq h hw
  have hsummary : ∀ route st, s.data.stats.lookup route = some st →
      Summarises (callsOf route cs) st := by
    intro route st hst
    rw [hdata] at hst
    exact (summarises_of_lookup hst).perm (hcs.filter _)
  refine ⟨fun route => ?_, hsummary, fun as' s' h' hw' hcs' route => ?_, fun f hf => ?_,
    fun walk hwalk => ?_, fun route st hst hlt => ?_⟩
  · rw [hdata, isSome_lookup_recordAll]
    simp only [hcs.mem_iff]
  · have hdata' : s'.data = recordAll s'.order := State.data_eq h' hw'
    rw [hdata, hdata']
    exact lookup_recordAll_perm (hcs'.trans hcs.symm) route
  · obtain ⟨hseen, hadmits, hvalue⟩ := State.value_eq h hf
    refine ⟨hseen, ?_⟩
    rw [hvalue]
    exact reports_answer hadmits
  · rw [hdata] at hwalk ⊢
    rw [totalRequests_recordAll hwalk, totalErrors_recordAll hwalk, hcs.length_eq, hcs.countP_eq]
    exact ⟨rfl, rfl⟩
  · obtain ⟨hrequests, herrors, hle⟩ := (hsummary route st hst).counts hlt
    exact ⟨hrequests, herrors, hle, (hsummary route st hst).bounds hlt⟩

/-- Two requests for one route, with two overlapping readers in between. -/
def RequestStats.twoRequests : List (Action Recording Reading) :=
  [.lock ⟨['/'], 7, true⟩, .write, .write, .write, .write, .write, .write, .unlock,
    .lockShared ⟨.snapshot, [['/']]⟩, .lockShared ⟨.totalRequests, [['/']]⟩, .read 1, .read 0,
    .unlockShared 1, .unlockShared 0,
    .lock ⟨['/'], 3, false⟩, .write, .write, .write, .write, .write, .write, .unlock]

/-- Both readers report the first request only. -/
theorem requestStats_exact_two :
    ∃ s, Runs.run locks.step (State.init RequestStats.empty) twoRequests = some s ∧
      s.data.stats.lookup ['/'] = some ⟨2, 1, 10, 3, 7⟩ ∧
      Summarises [⟨['/'], 7, true⟩, ⟨['/'], 3, false⟩] ⟨2, 1, 10, 3, 7⟩ ∧
      s.results.map (fun f => (f.call.query, f.seen)) = [(.totalRequests, 1), (.snapshot, 1)] ∧
      s.results.map (fun f => (f.value.n, f.value.copy.lookup ['/'])) = [(1, none), (0, some ⟨1, 0, 7, 7, 7⟩)] ∧
      ∀ f ∈ s.results, f.seen ≤ s.order.length ∧ Reports (s.order.take f.seen) f.call.query f.value := by
  obtain ⟨s, hrun, hw, horder, hlookup, hresults, hvalues⟩ :
      ∃ s, Runs.run locks.step (State.init RequestStats.empty) twoRequests = some s ∧
        s.writer.isNone = true ∧ s.order = [⟨['/'], 7, true⟩, ⟨['/'], 3, false⟩] ∧
        s.data.stats.lookup ['/'] = some ⟨2, 1, 10, 3, 7⟩ ∧
        s.results.map (fun f => (f.call.query, f.seen)) = [(.totalRequests, 1), (.snapshot, 1)] ∧
        s.results.map (fun f => (f.value.n, f.value.copy.lookup ['/'])) =
          [(1, none), (0, some ⟨1, 0, 7, 7, 7⟩)] :=
    Runs.exists_run_of_any (by decide)
  have hexact := requestStats_exact hrun (Option.isNone_iff_eq_none.mp hw) (List.Perm.of_eq horder)
  exact ⟨s, hrun, hlookup, hexact.2.1 _ _ hlookup, hresults, hvalues, hexact.2.2.2.1⟩

end EbpfMonitor
