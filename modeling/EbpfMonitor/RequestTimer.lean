import EbpfMonitor.RequestStats

/-! # `RequestTimer`

The embedding of `RequestTimer` of `src/http/request_stats.h`: any number of timers on one
`RequestStats`.  A timer is used by one thread, so its own calls come one after the other; the
calls of different timers overlap.  `finish` touches shared data in its call of `record` alone,
and `record` is one section of the lock, so a call of `finish` is cut in two: what it does to the
timer, and the call of `record`.

* **Time.**  A time point of `steady_clock` is a number of nanoseconds.
* **The order of the records.**  `order` keeps the calls of `record` with the timer that made each
  of them.  No function reads it.

What a schedule asks of a timer is read off the schedule: `created`, `endings`, `finishes`.
`contribution` says what the timer has to record.  `requestTimer_once` is the result. -/

namespace EbpfMonitor

open RequestStats

/-- `duration_cast<microseconds>(now - start).count()`, cast to `uint64_t`. -/
def elapsedUs (start now : ℤ) : BitVec 64 := BitVec.ofInt 64 ((now - start).tdiv 1000)

/-- Where the owner of a timer is: between two calls, in `finish` before `record` is called, or past
the destructor.  `leaving` says whether it is the destructor that has called `finish`. -/
inductive Phase where
  | idle
  | recording (elapsedUs : BitVec 64) (ok leaving : Bool)
  | destroyed
deriving DecidableEq

namespace Phase

def isRecording : Phase → Bool
  | recording _ _ _ => true
  | _ => false

/-- The destructor has been called. -/
def leaving : Phase → Bool
  | idle => false
  | recording _ _ leaving => leaving
  | destroyed => true

/-- The phase after a call of `finish`. -/
def returned (leaving : Bool) : Phase := if leaving then destroyed else idle

@[simp] theorem isRecording_returned (b : Bool) : (returned b).isRecording = false := by
  cases b <;> rfl

@[simp] theorem leaving_returned (b : Bool) : (returned b).leaving = b := by
  cases b <;> rfl

theorem returned_ne_recording (b : Bool) (elapsedUs : BitVec 64) (ok leaving : Bool) :
    returned b ≠ recording elapsedUs ok leaving := by
  cases b <;> simp [returned]

end Phase

structure RequestTimer where
  route : Text
  start : ℤ
  done : Bool := false
  phase : Phase := .idle
deriving DecidableEq

namespace RequestTimer

/-- `finish(ok)` up to the call of `record`. -/
def finish (t : RequestTimer) (ok leaving : Bool) (now : ℤ) : RequestTimer :=
  if t.done then { t with phase := Phase.returned leaving }
  else { t with done := true, phase := .recording (elapsedUs t.start now) ok leaving }

/-- The timer has made its call of `record`. -/
def recorded (t : RequestTimer) : Bool := t.done && !t.phase.isRecording

end RequestTimer

/-- The timers on one `RequestStats`. -/
structure Timers where
  stats : RequestStats := RequestStats.empty
  timers : List RequestTimer := []
  order : List (ℕ × Recording) := []

namespace Timers

/-- What the threads do; a timer is named by its place in the order of construction. -/
inductive Action where
  | construct (route : Text) (now : ℤ)
  | finish (i : ℕ) (ok : Bool) (now : ℤ)
  | destroy (i : ℕ) (now : ℤ)
  | record (i : ℕ)
deriving DecidableEq

/-- A call of `finish`, by the owner or by the destructor. -/
def call (s : Timers) (i : ℕ) (ok leaving : Bool) (now : ℤ) : Option Timers :=
  match s.timers[i]? with
  | some t =>
      if t.phase = .idle then some { s with timers := s.timers.set i (t.finish ok leaving now) } else none
  | none => none

def step (s : Timers) : Action → Option Timers
  | .construct route now => some { s with timers := s.timers ++ [{ route := route, start := now }] }
  | .finish i ok now => s.call i ok false now
  | .destroy i now => s.call i false true now
  | .record i =>
      match s.timers[i]? with
      | some ⟨route, start, done, .recording elapsedUs ok leaving⟩ =>
          some {
            stats := s.stats.record ⟨route, elapsedUs, ok⟩
            timers := s.timers.set i ⟨route, start, done, Phase.returned leaving⟩
            order := s.order ++ [(i, ⟨route, elapsedUs, ok⟩)] }
      | _ => none

/-! ### What the schedule asks of a timer -/

namespace Action

/-- The route and the time of a constructor call. -/
def creation : Action → Option (Text × ℤ)
  | construct route now => some (route, now)
  | _ => none

/-- The argument and the time of a call of `finish` on the timer `i`; the destructor calls it with
`false`. -/
def ending (i : ℕ) : Action → Option (Bool × ℤ)
  | finish j ok now => if j = i then some (ok, now) else none
  | destroy j now => if j = i then some (false, now) else none
  | _ => none

/-- The argument of a call of `finish` on the timer `i` by its owner. -/
def finishing (i : ℕ) : Action → Option Bool
  | finish j ok _ => if j = i then some ok else none
  | _ => none

end Action

def created (as : List Action) : List (Text × ℤ) := as.filterMap Action.creation

def endings (i : ℕ) (as : List Action) : List (Bool × ℤ) := as.filterMap (Action.ending i)

def finishes (i : ℕ) (as : List Action) : List Bool := as.filterMap (Action.finishing i)

/-- What the timer `i` has to record: its own route, the time to the first call of `finish` or else
to the destructor, and the argument of that call. -/
def contribution (as : List Action) (i : ℕ) : Option Recording :=
  match (created as)[i]?, (endings i as).head? with
  | some (route, start), some (ok, now) => some ⟨route, elapsedUs start now, ok⟩
  | _, _ => none

theorem created_concat (as : List Action) (a : Action) :
    created (as ++ [a]) = created as ++ a.creation.toList := by
  rw [created, List.filterMap_append]
  cases h : a.creation <;> simp [created, h]

theorem endings_concat (i : ℕ) (as : List Action) (a : Action) :
    endings i (as ++ [a]) = endings i as ++ (a.ending i).toList := by
  rw [endings, List.filterMap_append]
  cases h : a.ending i <;> simp [endings, h]

theorem finishes_concat (i : ℕ) (as : List Action) (a : Action) :
    finishes i (as ++ [a]) = finishes i as ++ (a.finishing i).toList := by
  rw [finishes, List.filterMap_append]
  cases h : a.finishing i <;> simp [finishes, h]

theorem contribution_eq_some {as : List Action} {i : ℕ} {c : Recording} :
    contribution as i = some c ↔ ∃ start now, (created as)[i]? = some (c.route, start) ∧
      (endings i as).head? = some (c.ok, now) ∧ c.elapsedUs = elapsedUs start now := by
  unfold contribution
  constructor
  · intro h
    split at h
    next route start ok now hcreated hending =>
      obtain rfl := Option.some.inj h
      exact ⟨start, now, hcreated, hending, rfl⟩
    next => cases h
  · rintro ⟨start, now, hcreated, hending, helapsed⟩
    rw [hcreated, hending]
    simp only [← helapsed]

theorem getElem?_created_concat {as : List Action} {i : ℕ} {e : Text × ℤ} (h : (created as)[i]? = some e)
    (a : Action) : (created (as ++ [a]))[i]? = some e := by
  rw [created_concat, List.getElem?_append_left (List.getElem?_eq_some_iff.mp h).1, h]

/-- What a timer has to record is settled by the first call. -/
theorem contribution_concat {as : List Action} {i : ℕ} {c : Recording} (h : contribution as i = some c)
    (a : Action) : contribution (as ++ [a]) i = some c := by
  obtain ⟨start, now, hcreated, hending, helapsed⟩ := contribution_eq_some.mp h
  refine contribution_eq_some.mpr ⟨start, now, getElem?_created_concat hcreated a, ?_, helapsed⟩
  rw [endings_concat, List.head?_append, hending]
  rfl

/-! ### One timer -/

/-- The timer `i` against the schedule so far. -/
structure Fits (as : List Action) (i : ℕ) (t : RequestTimer) : Prop where
  created : (created as)[i]? = some (t.route, t.start)
  done : t.done = true ↔ endings i as ≠ []
  recording : ∀ elapsed ok leaving, t.phase = .recording elapsed ok leaving →
    contribution as i = some ⟨t.route, elapsed, ok⟩
  calls : (endings i as).map Prod.fst = finishes i as ++ (if t.phase.leaving then [false] else [])

section fits

variable {as : List Action} {i : ℕ} {t : RequestTimer}

theorem fits_construct (hi : i = (created as).length) (hnone : endings i as = [] ∧ finishes i as = [])
    (route : Text) (now : ℤ) :
    Fits (as ++ [.construct route now]) i { route := route, start := now } where
  created := by
    subst hi
    rw [created_concat]
    exact List.getElem?_concat_length
  done := by
    rw [endings_concat, hnone.1]
    simp [Action.ending]
  recording elapsed ok leaving h := by cases h
  calls := by
    rw [endings_concat, finishes_concat, hnone.1, hnone.2]
    rfl

/-- An action of somebody else. -/
theorem Fits.other (h : Fits as i t) {a : Action} (hending : a.ending i = none)
    (hfinishing : a.finishing i = none) : Fits (as ++ [a]) i t where
  created := getElem?_created_concat h.created a
  done := by
    rw [endings_concat, hending]
    simpa using h.done
  recording elapsed ok leaving hphase := contribution_concat (h.recording elapsed ok leaving hphase) a
  calls := by
    rw [endings_concat, finishes_concat, hending, hfinishing]
    simpa using h.calls

/-- A call of `finish` by the owner or by the destructor. -/
theorem Fits.call (h : Fits as i t) (hphase : t.phase = .idle) {a : Action} {ok leaving : Bool} {now : ℤ}
    (hending : a.ending i = some (ok, now))
    (hfinishing : [ok] = (a.finishing i).toList ++ (if leaving then [false] else [])) :
    Fits (as ++ [a]) i (t.finish ok leaving now) := by
  have hcalls : (endings i (as ++ [a])).map Prod.fst =
      finishes i (as ++ [a]) ++ (if leaving then [false] else []) := by
    have hbefore := h.calls
    rw [hphase] at hbefore
    rw [endings_concat, finishes_concat, hending, List.map_append, hbefore]
    simp [Phase.leaving, hfinishing]
  have hne : endings i (as ++ [a]) ≠ [] := by
    rw [endings_concat, hending]
    simp
  unfold RequestTimer.finish
  split_ifs with hdone
  · refine ⟨getElem?_created_concat h.created a, ⟨fun _ => hne, fun _ => hdone⟩, ?_, ?_⟩
    · exact fun elapsed ok' leaving' heq => absurd heq (Phase.returned_ne_recording leaving _ _ _)
    · rw [hcalls, Phase.leaving_returned]
  · refine ⟨getElem?_created_concat h.created a, ⟨fun _ => hne, fun _ => rfl⟩, ?_, hcalls⟩
    rintro elapsed ok' leaving' heq
    obtain ⟨rfl, rfl, rfl⟩ := Phase.recording.inj heq
    -- no call before: this one is the first
    have hnil : endings i as = [] := by
      by_contra hne'
      exact hdone (h.done.mpr hne')
    refine contribution_eq_some.mpr ⟨t.start, now, getElem?_created_concat h.created a, ?_, rfl⟩
    rw [endings_concat, hnil, hending]
    rfl

theorem Fits.record {route : Text} {start : ℤ} {done : Bool} {elapsed : BitVec 64} {ok leaving : Bool}
    (h : Fits as i ⟨route, start, done, .recording elapsed ok leaving⟩) :
    Fits (as ++ [.record i]) i ⟨route, start, done, Phase.returned leaving⟩ := by
  have hsame := h.other (a := .record i) rfl rfl
  refine ⟨hsame.created, hsame.done, ?_, ?_⟩
  · exact fun elapsed' ok' leaving' heq => absurd heq (Phase.returned_ne_recording leaving _ _ _)
  · rw [hsame.calls, Phase.leaving_returned]
    rfl

/-- The first call was `finish(true)` exactly when the first call of the owner was. -/
theorem Fits.head_endings (h : Fits as i t) :
    (endings i as).head?.map Prod.fst = some true ↔ (finishes i as).head? = some true := by
  rw [← List.head?_map, h.calls]
  cases finishes i as with
  | nil => cases t.phase.leaving <;> simp
  | cons ok oks => simp

end fits

/-! ### All timers -/

/-- The timers against the schedule so far; nobody has called a timer that is not there. -/
structure Tracks (as : List Action) (timers : List RequestTimer) : Prop where
  length : timers.length = (created as).length
  fresh : ∀ i, timers.length ≤ i → endings i as = [] ∧ finishes i as = []
  timer : ∀ i t, timers[i]? = some t → Fits as i t

section tracks

variable {as : List Action} {timers : List RequestTimer} {i : ℕ} {t t' : RequestTimer} {a : Action}

theorem Tracks.construct (h : Tracks as timers) (route : Text) (now : ℤ) :
    Tracks (as ++ [.construct route now]) (timers ++ [{ route := route, start := now }]) where
  length := by
    rw [created_concat, List.length_append, List.length_append, h.length]
    rfl
  fresh j hj := by
    rw [List.length_append] at hj
    rw [endings_concat, finishes_concat, (h.fresh j (by omega)).1, (h.fresh j (by omega)).2]
    exact ⟨rfl, rfl⟩
  timer j u hu := by
    rw [List.getElem?_append] at hu
    split_ifs at hu with hlt
    · exact (h.timer j u hu).other rfl rfl
    · rw [List.getElem?_singleton] at hu
      split_ifs at hu with hj
      obtain rfl := Option.some.inj hu
      have hlen : j = timers.length := by omega
      exact fits_construct (hlen.trans h.length) (h.fresh j (by omega)) route now

/-- An action on one timer. -/
theorem Tracks.set (h : Tracks as timers) (ht : timers[i]? = some t) (hcreation : a.creation = none)
    (hother : ∀ j, j ≠ i → a.ending j = none ∧ a.finishing j = none) (hfits : Fits (as ++ [a]) i t') :
    Tracks (as ++ [a]) (timers.set i t') where
  length := by
    rw [created_concat, hcreation, List.length_set, h.length]
    simp
  fresh j hj := by
    rw [List.length_set] at hj
    have hi : i < timers.length := (List.getElem?_eq_some_iff.mp ht).1
    obtain ⟨hending, hfinishing⟩ := hother j (by omega)
    rw [endings_concat, finishes_concat, hending, hfinishing, (h.fresh j hj).1, (h.fresh j hj).2]
    exact ⟨rfl, rfl⟩
  timer j u hu := by
    by_cases hj : j = i
    · subst hj
      rw [List.getElem?_set_self (List.getElem?_eq_some_iff.mp ht).1] at hu
      exact Option.some.inj hu ▸ hfits
    · rw [List.getElem?_set_ne (Ne.symm hj)] at hu
      exact (h.timer j u hu).other (hother j hj).1 (hother j hj).2

end tracks

/-- The timer has made its call of `record`. -/
def recordedAt (timers : List RequestTimer) (i : ℕ) : Bool := timers[i]?.any RequestTimer.recorded

theorem recordedAt_set {timers : List RequestTimer} {i : ℕ} {t : RequestTimer} (ht : timers[i]? = some t)
    (t' : RequestTimer) (j : ℕ) :
    recordedAt (timers.set i t') j = if j = i then t'.recorded else recordedAt timers j := by
  unfold recordedAt
  split_ifs with hj
  · subst hj
    rw [List.getElem?_set_self (List.getElem?_eq_some_iff.mp ht).1]
    rfl
  · rw [List.getElem?_set_ne (Ne.symm hj)]

theorem recordedAt_of_getElem? {timers : List RequestTimer} {i : ℕ} {t : RequestTimer}
    (ht : timers[i]? = some t) : recordedAt timers i = t.recorded := by
  rw [recordedAt, ht]
  rfl

/-- A timer that has recorded nothing yet is added. -/
theorem recordedAt_concat (timers : List RequestTimer) {t : RequestTimer} (ht : t.recorded = false) (j : ℕ) :
    recordedAt (timers ++ [t]) j = recordedAt timers j := by
  unfold recordedAt
  rw [List.getElem?_append]
  split_ifs with hlt
  · rfl
  · rw [List.getElem?_eq_none (Nat.le_of_not_lt hlt), List.getElem?_singleton]
    split_ifs
    · exact ht
    · rfl

/-- A call of `finish` does not record yet. -/
theorem recorded_finish {t : RequestTimer} (hphase : t.phase = .idle) (ok leaving : Bool) (now : ℤ) :
    (t.finish ok leaving now).recorded = t.recorded := by
  unfold RequestTimer.finish RequestTimer.recorded
  split_ifs with hdone
  · rw [Phase.isRecording_returned, hphase]
    rfl
  · simp only [Bool.not_eq_true] at hdone
    rw [hdone]
    rfl

/-- What holds after every schedule. -/
structure Inv (as : List Action) (s : Timers) : Prop where
  tracks : Tracks as s.timers
  stats : s.stats = recordAll (s.order.map Prod.snd)
  nodup : (s.order.map Prod.fst).Nodup
  mem : ∀ i, i ∈ s.order.map Prod.fst ↔ recordedAt s.timers i = true
  contributes : ∀ i c, (i, c) ∈ s.order → contribution as i = some c

section inv

variable {as : List Action} {s s' : Timers} {i : ℕ}

theorem inv_init : Inv [] {} where
  tracks := ⟨rfl, fun _ _ => ⟨rfl, rfl⟩, fun i t ht => by cases ht⟩
  stats := rfl
  nodup := List.nodup_nil
  mem i := by simp [recordedAt]
  contributes i c h := by cases h

theorem Inv.construct (h : Inv as s) (route : Text) (now : ℤ) :
    Inv (as ++ [.construct route now])
      { s with timers := s.timers ++ [{ route := route, start := now }] } where
  tracks := h.tracks.construct route now
  stats := h.stats
  nodup := h.nodup
  mem j := by
    rw [recordedAt_concat _ rfl]
    exact h.mem j
  contributes j c hjc := contribution_concat (h.contributes j c hjc) _

theorem Inv.call (h : Inv as s) {a : Action} {ok leaving : Bool} {now : ℤ}
    (hs : s.call i ok leaving now = some s') (hcreation : a.creation = none)
    (hother : ∀ j, j ≠ i → a.ending j = none ∧ a.finishing j = none)
    (hending : a.ending i = some (ok, now))
    (hfinishing : [ok] = (a.finishing i).toList ++ (if leaving then [false] else [])) :
    Inv (as ++ [a]) s' := by
  unfold Timers.call at hs
  split at hs
  next t ht =>
    split_ifs at hs with hphase
    obtain rfl := Option.some.inj hs
    refine ⟨?_, h.stats, h.nodup, fun j => ?_, fun j c hjc => ?_⟩
    · exact h.tracks.set ht hcreation hother ((h.tracks.timer i t ht).call hphase hending hfinishing)
    · rw [recordedAt_set ht, recorded_finish hphase, h.mem]
      split_ifs with hj
      · rw [hj, recordedAt_of_getElem? ht]
      · rfl
    · exact contribution_concat (h.contributes j c hjc) a
  next => cases hs

theorem Inv.record (h : Inv as s) {route : Text} {start : ℤ} {done : Bool} {elapsed : BitVec 64}
    {ok leaving : Bool} (ht : s.timers[i]? = some ⟨route, start, done, .recording elapsed ok leaving⟩) :
    Inv (as ++ [.record i])
      { stats := s.stats.record ⟨route, elapsed, ok⟩
        timers := s.timers.set i ⟨route, start, done, Phase.returned leaving⟩
        order := s.order ++ [(i, ⟨route, elapsed, ok⟩)] } := by
  have hfits := h.tracks.timer i _ ht
  have hcontribution : contribution as i = some ⟨route, elapsed, ok⟩ := hfits.recording _ _ _ rfl
  have hdone : done = true := by
    obtain ⟨_, _, _, hhead, _⟩ := contribution_eq_some.mp hcontribution
    exact hfits.done.mpr (fun hnil => by rw [hnil] at hhead; cases hhead)
  have hnot : i ∉ s.order.map Prod.fst := by
    rw [h.mem, recordedAt_of_getElem? ht, hdone]
    simp [RequestTimer.recorded, Phase.isRecording]
  refine ⟨?_, ?_, ?_, fun j => ?_, fun j c hjc => ?_⟩
  · exact h.tracks.set ht rfl (fun _ _ => ⟨rfl, rfl⟩) hfits.record
  · rw [List.map_append, List.map_cons, List.map_nil, recordAll_concat, h.stats]
  · rw [List.map_append]
    exact List.Nodup.append h.nodup (List.nodup_singleton i)
      (List.disjoint_singleton.mpr hnot)
  · rw [recordedAt_set ht, List.map_append, List.mem_append, h.mem]
    split_ifs with hj
    · simp [hj, hdone, RequestTimer.recorded]
    · simp [hj]
  · rcases List.mem_append.mp hjc with hjc | hjc
    · exact contribution_concat (h.contributes j c hjc) _
    · obtain ⟨rfl, rfl⟩ := Prod.mk.inj (List.mem_singleton.mp hjc)
      exact contribution_concat hcontribution _

theorem Inv.step (h : Inv as s) {a : Action} (hs : step s a = some s') : Inv (as ++ [a]) s' := by
  cases a with
  | construct route now => exact Option.some.inj hs ▸ h.construct route now
  | finish i ok now =>
      exact h.call hs rfl (fun j hj => ⟨if_neg (Ne.symm hj), if_neg (Ne.symm hj)⟩) (if_pos rfl)
        (by simp [Action.finishing])
  | destroy i now =>
      exact h.call hs rfl (fun j hj => ⟨if_neg (Ne.symm hj), rfl⟩) (if_pos rfl) rfl
  | record i =>
      simp only [Timers.step] at hs
      split at hs
      next route start done elapsed ok leaving ht => exact Option.some.inj hs ▸ h.record ht
      next => cases hs

theorem inv_of_run (h : Runs.run step {} as = some s) : Inv as s :=
  Runs.run_history inv_init (fun _ _ _ _ hinv hstep => Inv.step hinv hstep) h

end inv

/-! ### Every schedule -/

/-- The owner of the timer is in `finish`, before the call of `record`. -/
def underWay (s : Timers) (i : ℕ) : Bool := s.timers[i]?.any (·.phase.isRecording)

/-- The timer has been finished or destroyed, and the call has returned. -/
def ended (as : List Action) (s : Timers) (i : ℕ) : Bool := !(endings i as).isEmpty && !s.underWay i

/-- The first call of `finish` by the owner was not `finish(true)`, or there was none. -/
def failed (as : List Action) (i : ℕ) : Bool := (finishes i as).head? ≠ some true

section run

variable {as : List Action} {s : Timers} {i : ℕ}

theorem Inv.mem_iff_ended (h : Inv as s) :
    i ∈ s.order.map Prod.fst ↔ i < (created as).length ∧ ended as s i = true := by
  rw [h.mem]
  cases ht : s.timers[i]? with
  | none =>
      have hle : s.timers.length ≤ i := List.getElem?_eq_none_iff.mp ht
      have hlen := h.tracks.length
      rw [recordedAt, ht]
      simp only [Option.any_none]
      constructor
      · intro hfalse
        cases hfalse
      · intro hlt
        omega
  | some t =>
      have hlt : i < (created as).length := by
        rw [← h.tracks.length]
        exact (List.getElem?_eq_some_iff.mp ht).1
      have hdone := (h.tracks.timer i t ht).done
      rw [recordedAt_of_getElem? ht, RequestTimer.recorded, ended, underWay, ht]
      simp [hlt, hdone]

/-- The timers that have recorded are those that have been finished or destroyed. -/
theorem Inv.perm_ended (h : Inv as s) :
    (s.order.map Prod.fst).Perm ((List.range (created as).length).filter (ended as s)) := by
  rw [List.perm_ext_iff_of_nodup h.nodup (List.nodup_range.filter _)]
  intro i
  rw [h.mem_iff_ended, List.mem_filter, List.mem_range]

theorem Inv.ok_eq_false_iff (h : Inv as s) {c : Recording} (hic : (i, c) ∈ s.order) :
    c.ok = false ↔ failed as i = true := by
  obtain ⟨_, now, hcreated, hhead, _⟩ := contribution_eq_some.mp (h.contributes i c hic)
  have hlt : i < s.timers.length := by
    rw [h.tracks.length]
    exact (List.getElem?_eq_some_iff.mp hcreated).1
  have hiff := (h.tracks.timer i _ (List.getElem?_eq_getElem hlt)).head_endings
  rw [hhead, Option.map_some, Option.some.injEq] at hiff
  rw [failed, decide_eq_true_eq, ne_eq, ← hiff, Bool.not_eq_true]

theorem Inv.countP_order (h : Inv as s) :
    (s.order.map Prod.snd).countP (fun c => !c.ok) =
      (List.range (created as).length).countP (fun i => ended as s i && failed as i) := by
  have hfailed : s.order.countP (fun e => !e.2.ok) = s.order.countP (fun e => failed as e.1) := by
    refine List.countP_congr (fun e he => ?_)
    rw [Bool.not_eq_true', h.ok_eq_false_iff (c := e.2) he]
  calc (s.order.map Prod.snd).countP (fun c => !c.ok)
      = s.order.countP (fun e => !e.2.ok) := List.countP_map
    _ = s.order.countP (fun e => failed as e.1) := hfailed
    _ = (s.order.map Prod.fst).countP (failed as) := by
        rw [List.countP_map]
        rfl
    _ = ((List.range (created as).length).filter (ended as s)).countP (failed as) :=
        h.perm_ended.countP_eq _
    _ = (List.range (created as).length).countP (fun i => ended as s i && failed as i) := by
        rw [List.countP_filter]
        simp only [Bool.and_comm]

theorem Inv.ended_of_destroyed (h : Inv as s) (hall : ∀ t ∈ s.timers, t.phase = .destroyed)
    (hi : i < (created as).length) : ended as s i = true := by
  rw [← h.tracks.length] at hi
  have ht : s.timers[i]? = some s.timers[i] := List.getElem?_eq_getElem hi
  have hphase : s.timers[i].phase = .destroyed := hall _ (List.getElem_mem hi)
  have hcalls := (h.tracks.timer i _ ht).calls
  rw [hphase] at hcalls
  have hne : endings i as ≠ [] := by
    intro hnil
    rw [hnil] at hcalls
    simp [Phase.leaving] at hcalls
  rw [ended, underWay, ht]
  simp [hne, hphase, Phase.isRecording]

/-- The sums count the timers that have been finished or destroyed, and the failed ones among them. -/
theorem Inv.totals (h : Inv as s) {walk : List Text} (hwalk : walk.Perm s.stats.stats.keys) :
    (s.stats.totalRequests walk).toNat = (List.range (created as).length).countP (ended as s) % 2 ^ 64 ∧
      (s.stats.totalErrors walk).toNat =
        (List.range (created as).length).countP (fun i => ended as s i && failed as i) % 2 ^ 64 := by
  have hlength := h.perm_ended.length_eq
  rw [List.length_map, ← List.countP_eq_length_filter] at hlength
  rw [h.stats] at hwalk ⊢
  rw [totalRequests_recordAll hwalk, totalErrors_recordAll hwalk, List.length_map, hlength, h.countP_order]
  exact ⟨rfl, rfl⟩

theorem Inv.totals_of_destroyed (h : Inv as s) (hall : ∀ t ∈ s.timers, t.phase = .destroyed)
    {walk : List Text} (hwalk : walk.Perm s.stats.stats.keys) :
    (s.stats.totalRequests walk).toNat = (created as).length % 2 ^ 64 ∧
      (s.stats.totalErrors walk).toNat =
        (List.range (created as).length).countP (failed as) % 2 ^ 64 := by
  have hended : ∀ i ∈ List.range (created as).length, ended as s i = true :=
    fun i hi => h.ended_of_destroyed hall (List.mem_range.mp hi)
  obtain ⟨hrequests, herrors⟩ := h.totals hwalk
  rw [hrequests, herrors]
  constructor
  · rw [List.countP_eq_length.mpr hended, List.length_range]
  · congr 1
    refine List.countP_congr (fun i hi => ?_)
    rw [hended i hi, Bool.true_and]

/-- **Every timer records exactly once.**  After every schedule of any number of timers, the calls
of `record` are one for each timer that has been finished or destroyed: for its own route, timed by
the first call of `finish` or else by the destructor, and failed exactly when the first call of
`finish` by the owner was not `finish(true)` or there was none.  The sums of the statistics count
these timers, and all timers once they are all destroyed. -/
theorem requestTimer_once (h : Runs.run step {} as = some s) :
    s.stats = recordAll (s.order.map Prod.snd) ∧
    (s.order.map Prod.fst).Perm ((List.range (created as).length).filter (ended as s)) ∧
    (∀ i c, (i, c) ∈ s.order → contribution as i = some c ∧ (c.ok = false ↔ failed as i = true)) ∧
    (∀ walk : List Text, walk.Perm s.stats.stats.keys →
      (s.stats.totalRequests walk).toNat =
        (List.range (created as).length).countP (ended as s) % 2 ^ 64 ∧
      (s.stats.totalErrors walk).toNat =
        (List.range (created as).length).countP (fun i => ended as s i && failed as i) % 2 ^ 64) ∧
    ((∀ t ∈ s.timers, t.phase = .destroyed) → ∀ walk : List Text, walk.Perm s.stats.stats.keys →
      (s.stats.totalRequests walk).toNat = (created as).length % 2 ^ 64 ∧
      (s.stats.totalErrors walk).toNat =
        (List.range (created as).length).countP (failed as) % 2 ^ 64) := by
  have hinv := inv_of_run h
  exact ⟨hinv.stats, hinv.perm_ended,
    fun i c hic => ⟨hinv.contributes i c hic, hinv.ok_eq_false_iff hic⟩,
    fun walk hwalk => hinv.totals hwalk, fun hall walk hwalk => hinv.totals_of_destroyed hall hwalk⟩

end run

/-- Three timers: one finished twice, one finished as failed while the first is in `finish`, one
never finished. -/
def threeTimers : List Action :=
  [.construct ['/'] 0, .construct ['m'] 1000, .construct ['/'] 2000, .finish 0 true 5000,
    .finish 1 false 6000, .record 1, .record 0, .finish 0 false 7000, .destroy 2 9000, .record 2,
    .destroy 1 9000, .destroy 0 9000]

theorem requestTimer_once_three :
    ∃ s, Runs.run step {} threeTimers = some s ∧
      s.order = [(1, ⟨['m'], 5, false⟩), (0, ⟨['/'], 5, true⟩), (2, ⟨['/'], 7, false⟩)] ∧
      ∀ walk : List Text, walk.Perm s.stats.stats.keys →
        (s.stats.totalRequests walk).toNat = 3 ∧ (s.stats.totalErrors walk).toNat = 2 := by
  obtain ⟨s, hrun, horder, hall⟩ : ∃ s, Runs.run step {} threeTimers = some s ∧
      s.order = [(1, ⟨['m'], 5, false⟩), (0, ⟨['/'], 5, true⟩), (2, ⟨['/'], 7, false⟩)] ∧
      ∀ t ∈ s.timers, t.phase = .destroyed :=
    Runs.exists_run_of_any (by decide)
  exact ⟨s, hrun, horder, (requestTimer_once hrun).2.2.2.2 hall⟩

end Timers

end EbpfMonitor
