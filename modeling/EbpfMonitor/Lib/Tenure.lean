import EbpfMonitor.Lib.Lifetime
import Mathlib.Data.List.TakeWhile

/-! # Tenures of reused names

A history is a list of calls, each of which is an event on a name (`Lifetime.Event`).  A name is
given away again after its release, so the calls on a name are not all made for one holder.

* `tenure event k later` are the calls of one holder of `k`: of the calls `later` that follow its
  acquisition, those on `k` until `k` is acquired again.
* `Turns event P held h` says that every holder has had one turn, a block of calls with the
  property `P`, or none yet, and that those without one are the holders of the names `held`.

The rules `Turns.acquire` and `Turns.turn` extend a history by an acquisition and by a turn. -/

namespace Lifetime

variable {K C : Type}

/-- The name the event is about. -/
def Event.name : Event K → K
  | .acquire k => k
  | .use k => k
  | .release k => k

def Event.isAcquire : Event K → Bool
  | .acquire _ => true
  | .use _ => false
  | .release _ => false

theorem Event.eq_acquire_of_isAcquire {e : Event K} (h : e.isAcquire = true) :
    e = .acquire e.name := by
  cases e with
  | acquire k => rfl
  | use k => cases h
  | release k => cases h

/-- The name is acquired in the history. -/
def Acquired (event : C → Event K) (k : K) (h : List C) : Prop := ∃ c ∈ h, event c = .acquire k

theorem acquired_append {event : C → Event K} {k : K} {later calls : List C} :
    Acquired event k (later ++ calls) ↔ Acquired event k later ∨ Acquired event k calls := by
  simp only [Acquired, List.mem_append, or_and_right, exists_or]

variable [DecidableEq K]

/-- Of the calls after an acquisition of `k`, those on `k` until it is acquired again. -/
def tenure (event : C → Event K) (k : K) (later : List C) : List C :=
  (later.filter (fun c => (event c).name = k)).takeWhile (fun c => !(event c).isAcquire)

variable {event : C → Event K} {k : K} {later calls : List C}

/-- What follows the next acquisition is not part of the tenure. -/
theorem tenure_append_of_acquired (calls : List C) (h : Acquired event k later) :
    tenure event k (later ++ calls) = tenure event k later := by
  obtain ⟨c, hc, hk⟩ := h
  obtain ⟨l, l', rfl⟩ := List.append_of_mem hc
  have hname : (event c).name = k := by rw [hk]; rfl
  have hacq : (event c).isAcquire = true := by rw [hk]; rfl
  simp only [tenure, List.append_assoc, List.cons_append, List.filter_append, List.filter_cons,
    hname, decide_true, if_true]
  rw [List.takeWhile_append, List.takeWhile_append]
  simp only [List.takeWhile_cons, hacq, Bool.not_true, Bool.false_eq_true, if_false]

theorem tenure_append_of_not_acquired (calls : List C) (h : ¬ Acquired event k later) :
    tenure event k (later ++ calls) = tenure event k later ++ tenure event k calls := by
  have hall : ∀ c ∈ later.filter (fun c => (event c).name = k), (!(event c).isAcquire) = true := by
    intro c hc
    obtain ⟨hmem, hk⟩ := List.mem_filter.mp hc
    rw [Bool.not_eq_true']
    by_contra hacq
    rw [Bool.not_eq_false] at hacq
    have heq := Event.eq_acquire_of_isAcquire hacq
    rw [of_decide_eq_true hk] at heq
    exact h ⟨c, hmem, heq⟩
  simp only [tenure, List.filter_append]
  rw [List.takeWhile_append_of_pos hall, List.takeWhile_eq_self_iff.mpr hall]

theorem tenure_append_of_ne (h : ∀ c ∈ calls, (event c).name ≠ k) :
    tenure event k (later ++ calls) = tenure event k later := by
  have hnone : calls.filter (fun c => (event c).name = k) = [] := by
    apply List.filter_eq_nil_iff.mpr
    intro c hc heq
    exact h c hc (of_decide_eq_true heq)
  rw [tenure, List.filter_append, hnone, List.append_nil]
  rfl

/-- An acquisition of the name ends its tenure and adds nothing to it. -/
theorem tenure_append_acquire {c : C} (h : event c = .acquire k) :
    tenure event k (later ++ [c]) = tenure event k later := by
  by_cases hacq : Acquired event k later
  · exact tenure_append_of_acquired [c] hacq
  · have hnil : tenure event k [c] = [] := by simp [tenure, h, Event.name, Event.isAcquire]
    rw [tenure_append_of_not_acquired [c] hacq, hnil, List.append_nil]

theorem tenure_eq_self (h : ∀ c ∈ calls, (event c).name = k ∧ (event c).isAcquire = false) :
    tenure event k calls = calls := by
  rw [tenure, List.filter_eq_self.mpr (fun c hc => decide_eq_true (h c hc).1)]
  exact List.takeWhile_eq_self_iff.mpr (fun c hc => by rw [(h c hc).2, Bool.not_false])

/-! ### One turn for each holder -/

variable (event) in
/-- Every holder of a name has had one turn, or it still holds the name and has had none. -/
structure Turns (P : K → List C → Prop) (held : List K) (h : List C) : Prop where
  turns : ∀ pre c post k, h = pre ++ c :: post → event c = .acquire k →
    (tenure event k post = [] ∧ ¬ Acquired event k post ∧ k ∈ held) ∨
      (P k (tenure event k post) ∧ (Acquired event k post ∨ k ∉ held))
  acquired : ∀ k ∈ held, ∃ pre c post, h = pre ++ c :: post ∧ event c = .acquire k ∧
    ¬ Acquired event k post

variable {P : K → List C → Prop} {held : List K} {h : List C}

theorem Turns.nil : Turns event P [] [] := by
  refine ⟨fun pre c post k hsplit => ?_, fun k hk => ?_⟩
  · exact absurd hsplit.symm (by simp)
  · cases hk

/-- A free name is given to a new holder. -/
theorem Turns.acquire {c : C} (ht : Turns event P held h) (hc : event c = .acquire k)
    (hk : k ∉ held) : Turns event P (k :: held) (h ++ [c]) := by
  have hlast : ∀ k', Acquired event k' [c] ↔ k' = k := by
    intro k'
    simp only [Acquired, List.mem_singleton, exists_eq_left, hc, Event.acquire.injEq]
    exact eq_comm
  refine ⟨fun pre d post k' hsplit hd => ?_, fun k' hk' => ?_⟩
  · obtain ⟨post', rfl, rfl⟩ | ⟨mid, rfl, hmid⟩ := split_append hsplit
    · rw [acquired_append, hlast]
      obtain rfl | hne := eq_or_ne k' k
      · rw [tenure_append_acquire hc]
        obtain ⟨_, _, hheld⟩ | ⟨hP, _⟩ := ht.turns pre d post' k' rfl hd
        · exact absurd hheld hk
        · exact Or.inr ⟨hP, Or.inl (Or.inr rfl)⟩
      · rw [tenure_append_of_ne (by simpa [hc, Event.name] using hne.symm)]
        simpa [hne] using ht.turns pre d post' k' rfl hd
    · obtain ⟨rfl, rfl, rfl⟩ : d = c ∧ mid = [] ∧ post = [] := by
        simpa [List.cons_eq_append_iff, and_left_comm] using hmid
      obtain rfl := Event.acquire.inj (hd.symm.trans hc)
      refine Or.inl ⟨rfl, ?_, List.mem_cons_self ..⟩
      rintro ⟨e, he, _⟩
      cases he
  · obtain rfl | hne := eq_or_ne k' k
    · refine ⟨h, c, [], rfl, hc, ?_⟩
      rintro ⟨e, he, _⟩
      cases he
    · obtain ⟨pre, d, post, rfl, hd, hpost⟩ := ht.acquired k' ((List.mem_cons.mp hk').resolve_left hne)
      refine ⟨pre, d, post ++ [c], by simp, hd, ?_⟩
      rw [acquired_append, hlast]
      simp [hpost, hne]

/-- The holder of a name has its turn, which ends with the release of the name. -/
theorem Turns.turn (ht : Turns event P held h) (hn : held.Nodup) (hk : k ∈ held)
    (hcalls : ∀ c ∈ calls, (event c).name = k ∧ (event c).isAcquire = false) (hP : P k calls) :
    Turns event P (held.erase k) (h ++ calls) := by
  have hnone : ∀ k', ¬ Acquired event k' calls := by
    rintro k' ⟨c, hc, hacq⟩
    have := (hcalls c hc).2
    rw [hacq] at this
    cases this
  refine ⟨fun pre d post k' hsplit hd => ?_, fun k' hk' => ?_⟩
  · obtain ⟨post', rfl, rfl⟩ | ⟨mid, _, hmid⟩ := split_append hsplit
    swap
    · exact absurd ⟨d, by simp [hmid], hd⟩ (hnone k')
    have hpost : Acquired event k' (post' ++ calls) ↔ Acquired event k' post' := by
      rw [acquired_append, or_iff_left (hnone k')]
    rw [hpost]
    obtain rfl | hne := eq_or_ne k' k
    · refine Or.inr ⟨?_, Or.inr (fun hmem => (hn.mem_erase_iff.mp hmem).1 rfl)⟩
      obtain ⟨hnil, hnot, _⟩ | ⟨hturn, hacq | hheld⟩ := ht.turns pre d post' k' rfl hd
      · rw [tenure_append_of_not_acquired calls hnot, hnil, tenure_eq_self hcalls]
        exact hP
      · rw [tenure_append_of_acquired calls hacq]
        exact hturn
      · exact absurd hk hheld
    · have hother : ∀ c ∈ calls, (event c).name ≠ k' := fun c hc => by
        rw [(hcalls c hc).1]
        exact hne.symm
      rw [tenure_append_of_ne hother, List.mem_erase_of_ne hne]
      exact ht.turns pre d post' k' rfl hd
  · obtain ⟨_, hheld⟩ := hn.mem_erase_iff.mp hk'
    obtain ⟨pre, d, post, rfl, hd, hpost⟩ := ht.acquired k' hheld
    refine ⟨pre, d, post ++ calls, by simp, hd, ?_⟩
    rw [acquired_append, not_or]
    exact ⟨hpost, hnone k'⟩

/-- A name that is held has its last acquisition in the history, and no turn since. -/
theorem Turns.waiting (ht : Turns event P held h) (hk : k ∈ held) :
    ∃ pre c post, h = pre ++ c :: post ∧ event c = .acquire k ∧ ¬ Acquired event k post ∧
      tenure event k post = [] := by
  obtain ⟨pre, c, post, hsplit, hc, hpost⟩ := ht.acquired k hk
  obtain ⟨hnil, _⟩ | ⟨_, hacq | hheld⟩ := ht.turns pre c post k hsplit hc
  · exact ⟨pre, c, post, hsplit, hc, hpost, hnil⟩
  · exact absurd hacq hpost
  · exact absurd hk hheld

end Lifetime
