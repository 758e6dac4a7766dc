import Mathlib.Data.List.Basic

/-! # Lifetimes of resources

A history is a list of events on resources that go by names: a name is acquired, used and
released, and it may be acquired again after its release.

* `live h` is the list of the names that are held at the end of the history `h`.
* `Legal held h` says that, from the names `held` on, only free names are acquired and only
  held ones are used or released.
* `ReleasedOnce h` says that every acquisition is ended by one release, and that no name is
  used or released while it is not held.
* `Nested owner h` says that no name is released while a name it owns is held.

For a legal history the last two come to one question: `releasedOnce_iff` says that every
acquisition is released once exactly when nothing is held at the end. -/

namespace Lifetime

inductive Event (K : Type) where
  | acquire (k : K)
  | use (k : K)
  | release (k : K)

/-- An element of a list that is continued stands in the old part or in the new one. -/
theorem split_append {C : Type} {h calls pre post : List C} {d : C}
    (hsplit : h ++ calls = pre ++ d :: post) :
    (∃ post', post = post' ++ calls ∧ h = pre ++ d :: post') ∨
      ∃ mid, pre = h ++ mid ∧ calls = mid ++ d :: post := by
  obtain ⟨mid, hpre, hcalls⟩ | ⟨mid, hh, hpost⟩ := List.append_eq_append_iff.mp hsplit
  · exact Or.inr ⟨mid, hpre, hcalls⟩
  · cases mid with
    | nil => exact Or.inr ⟨[], by simpa using hh.symm, hpost.symm⟩
    | cons e mid =>
        obtain ⟨rfl, rfl⟩ := List.cons.inj hpost
        exact Or.inl ⟨mid, rfl, hh⟩

variable {K : Type} [DecidableEq K]

/-- The names held after an event. -/
def after (held : List K) : Event K → List K
  | .acquire k => k :: held
  | .use _ => held
  | .release k => held.erase k

/-- The names held at the end of a history. -/
def live (h : List (Event K)) : List K := h.foldl after []

/-- The event is possible while the names `held` are held. -/
def Allowed (held : List K) : Event K → Prop
  | .acquire k => k ∉ held
  | .use k => k ∈ held
  | .release k => k ∈ held

/-- Every event of the history is possible when its turn comes. -/
def Legal : List K → List (Event K) → Prop
  | _, [] => True
  | held, e :: h => Allowed held e ∧ Legal (after held e) h

/-- Every acquisition is ended by one release before the name is acquired again, and every use
and every release is of a name that is held at that time. -/
structure ReleasedOnce (h : List (Event K)) : Prop where
  released : ∀ pre k post, h = pre ++ .acquire k :: post →
    ∃ mid rest, post = mid ++ .release k :: rest ∧ .acquire k ∉ mid ∧ .release k ∉ mid
  used : ∀ pre k post, h = pre ++ .use k :: post → k ∈ live pre
  releases : ∀ pre k post, h = pre ++ .release k :: post → k ∈ live pre

theorem live_append (h h' : List (Event K)) : live (h ++ h') = h'.foldl after (live h) :=
  List.foldl_append

theorem legal_append {held : List K} {h h' : List (Event K)} :
    Legal held (h ++ h') ↔ Legal held h ∧ Legal (h.foldl after held) h' := by
  induction h generalizing held with
  | nil => simp [Legal]
  | cons e h ih => simp [Legal, ih, and_assoc]

/-- An event of a legal history was possible when its turn came. -/
theorem Legal.allowed {pre post : List (Event K)} {e : Event K}
    (h : Legal [] (pre ++ e :: post)) : Allowed (live pre) e :=
  (legal_append.mp h).2.1

theorem nodup_after {held : List K} {e : Event K} (hn : held.Nodup) (h : Allowed held e) :
    (after held e).Nodup := by
  cases e with
  | acquire k => exact List.nodup_cons.mpr ⟨h, hn⟩
  | use k => exact hn
  | release k => exact hn.erase k

theorem Legal.nodup_foldl {held : List K} {h : List (Event K)} (hn : held.Nodup)
    (hlegal : Legal held h) : (h.foldl after held).Nodup := by
  induction h generalizing held with
  | nil => exact hn
  | cons e h ih => exact ih (nodup_after hn hlegal.1) hlegal.2

/-- A free name may be acquired at the end of a history. -/
theorem Legal.append_acquire {h : List (Event K)} {k : Option K} (hlegal : Legal [] h)
    (hfree : ∀ k' ∈ k, k' ∉ live h) :
    Legal [] (h ++ k.toList.map .acquire) ∧ live (h ++ k.toList.map .acquire) = k.toList ++ live h := by
  cases k with
  | none =>
      rw [Option.toList_none, List.map_nil, List.append_nil]
      exact ⟨hlegal, rfl⟩
  | some k =>
      rw [live_append, legal_append]
      exact ⟨⟨hlegal, hfree k rfl, trivial⟩, rfl⟩

/-- Uses of one held name change nothing. -/
theorem legal_uses {held : List K} {k : K} {h : List (Event K)} (hk : k ∈ held)
    (huse : ∀ e ∈ h, e = .use k) : Legal held h ∧ h.foldl after held = held := by
  induction h with
  | nil => exact ⟨trivial, rfl⟩
  | cons e h ih =>
      obtain rfl := huse e (List.mem_cons_self ..)
      obtain ⟨hlegal, hheld⟩ := ih (fun e he => huse e (List.mem_cons_of_mem _ he))
      exact ⟨⟨hk, hlegal⟩, hheld⟩

theorem live_append_uses (h : List (Event K)) (ks : List K) : live (h ++ ks.map .use) = live h := by
  rw [live_append]
  generalize live h = held
  induction ks with
  | nil => rfl
  | cons k ks ih => exact ih

/-- Held names may be used at the end of a history. -/
theorem Legal.append_uses {h : List (Event K)} {ks : List K} (hlegal : Legal [] h)
    (hks : ∀ k ∈ ks, k ∈ live h) : Legal [] (h ++ ks.map .use) := by
  rw [legal_append]
  refine ⟨hlegal, ?_⟩
  change Legal (live h) _
  induction ks with
  | nil => trivial
  | cons k ks ih =>
      exact ⟨hks k (List.mem_cons_self ..), ih (fun k' hk' => hks k' (List.mem_cons_of_mem _ hk'))⟩

/-- What is held may be released, in any order. -/
theorem legal_releases {held ks : List K} (hks : ks.Perm held) :
    Legal held (ks.map .release) ∧ (ks.map .release).foldl after held = [] := by
  induction ks generalizing held with
  | nil => exact ⟨trivial, hks.nil_eq.symm⟩
  | cons k ks ih =>
      obtain ⟨hk, hrest⟩ := List.cons_perm_iff_perm_erase.mp hks
      obtain ⟨hrel, hnone⟩ := ih hrest
      exact ⟨⟨hk, hrel⟩, hnone⟩

/-- A held name stays held until it is released. -/
theorem mem_foldl_of_not_released {held : List K} {k : K} {h : List (Event K)} (hk : k ∈ held)
    (hrel : .release k ∉ h) : k ∈ h.foldl after held := by
  induction h generalizing held with
  | nil => exact hk
  | cons e h ih =>
      rw [List.mem_cons, not_or] at hrel
      obtain ⟨hne, hrest⟩ := hrel
      refine ih ?_ hrest
      cases e with
      | acquire k' => exact List.mem_cons_of_mem _ hk
      | use k' => exact hk
      | release k' =>
          refine (List.mem_erase_of_ne ?_).mpr hk
          rintro rfl
          exact hne rfl

/-- A name that is held at the end was held from the start or has been acquired, and it has not
been released since. -/
theorem mem_foldl_cases {held : List K} {k : K} {h : List (Event K)} (hn : held.Nodup)
    (hlegal : Legal held h) (hk : k ∈ h.foldl after held) :
    (k ∈ held ∧ .release k ∉ h) ∨
      ∃ pre post, h = pre ++ .acquire k :: post ∧ .release k ∉ post := by
  induction h generalizing held with
  | nil => exact Or.inl ⟨hk, List.not_mem_nil⟩
  | cons e h ih =>
      obtain ⟨hallowed, hrest⟩ := hlegal
      obtain ⟨hheld, hrel⟩ | ⟨pre, post, rfl, hrel⟩ := ih (nodup_after hn hallowed) hrest hk
      · cases e with
        | acquire k' =>
            obtain rfl | hheld := List.mem_cons.mp hheld
            · exact Or.inr ⟨[], h, rfl, hrel⟩
            · exact Or.inl ⟨hheld, by simp [hrel]⟩
        | use k' => exact Or.inl ⟨hheld, by simp [hrel]⟩
        | release k' =>
            obtain ⟨hne, hheld⟩ := hn.mem_erase_iff.mp hheld
            exact Or.inl ⟨hheld, by simp [hrel, hne]⟩
      · exact Or.inr ⟨e :: pre, post, rfl, hrel⟩

/-- In a legal history a name that is not held at the end has been released once after each of
its acquisitions. -/
theorem Legal.released {h pre post : List (Event K)} {k : K} (hlegal : Legal [] h)
    (hlive : k ∉ live h) (hsplit : h = pre ++ .acquire k :: post) :
    ∃ mid rest, post = mid ++ .release k :: rest ∧ .acquire k ∉ mid ∧ .release k ∉ mid := by
  subst hsplit
  have hrel : .release k ∈ post := by
    by_contra hrel
    apply hlive
    rw [live_append, List.foldl_cons]
    exact mem_foldl_of_not_released (List.mem_cons_self ..) hrel
  obtain ⟨mid, rest, rfl, hfirst⟩ := List.eq_append_cons_of_mem hrel
  refine ⟨mid, rest, rfl, fun hacq => ?_, hfirst⟩
  -- a second acquisition before the release would be of a name that is held
  obtain ⟨m, m', rfl⟩ := List.append_of_mem hacq
  have hlegal := (legal_append.mp hlegal).2.2
  rw [List.append_assoc, List.cons_append] at hlegal
  refine (legal_append.mp hlegal).2.1 (mem_foldl_of_not_released (List.mem_cons_self ..) ?_)
  exact fun hm => hfirst (List.mem_append_left _ hm)

/-- **In a legal history every acquisition is released once exactly when nothing is held at the
end.** -/
theorem releasedOnce_iff {h : List (Event K)} (hlegal : Legal [] h) :
    ReleasedOnce h ↔ live h = [] := by
  constructor
  · intro hr
    apply List.eq_nil_iff_forall_not_mem.mpr
    intro k hk
    obtain ⟨hnil, _⟩ | ⟨pre, post, hsplit, hrel⟩ := mem_foldl_cases List.nodup_nil hlegal hk
    · exact List.not_mem_nil hnil
    · obtain ⟨mid, rest, rfl, _⟩ := hr.released pre k post hsplit
      exact hrel (by simp)
  · intro hlive
    refine ⟨fun pre k post hsplit => ?_, ?_, ?_⟩
    · exact hlegal.released (by simp [hlive]) hsplit
    · rintro pre k post rfl
      exact hlegal.allowed
    · rintro pre k post rfl
      exact hlegal.allowed

/-! ### Names that own others -/

/-- No name is released while a name that it owns is held. -/
def Nested (owner : K → Option K) (h : List (Event K)) : Prop :=
  ∀ pre k post, h = pre ++ .release k :: post → ∀ k' ∈ live pre, owner k' ≠ some k

theorem Nested.nil (owner : K → Option K) : Nested owner [] := by
  intro pre k post hsplit
  exact absurd hsplit.symm (by simp)

/-- A history stays nested when it is continued without releases. -/
theorem Nested.append_of_not_release {owner : K → Option K} {h h' : List (Event K)}
    (hnested : Nested owner h) (hno : ∀ k, .release k ∉ h') : Nested owner (h ++ h') := by
  intro pre k post hsplit
  obtain ⟨post', _, hh⟩ | ⟨mid, _, hh'⟩ := split_append hsplit
  · exact hnested pre k post' hh
  · exact absurd (by simp [hh']) (hno k)

theorem Nested.append_release {owner : K → Option K} {h : List (Event K)} {k : K}
    (hnested : Nested owner h) (hk : ∀ k' ∈ live h, owner k' ≠ some k) :
    Nested owner (h ++ [.release k]) := by
  intro pre k₀ post hsplit
  obtain ⟨post', _, hh⟩ | ⟨mid, rfl, hmid⟩ := split_append hsplit
  · exact hnested pre k₀ post' hh
  · obtain ⟨rfl, rfl, rfl⟩ : k₀ = k ∧ mid = [] ∧ post = [] := by
      simpa [List.cons_eq_append_iff, and_left_comm] using hmid
    rwa [List.append_nil]

end Lifetime
