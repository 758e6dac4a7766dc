import EbpfMonitor.RunMonitor

/-! # `run_monitor`: what is acquired from libbpf

`State.trace` records what `run_monitor` acquires from libbpf and gives back: the objects, the
links and the ring buffers.

* `Env.thrower` is the statement of the body that throws, if one does, and `Env.leaked` what its
  constructor has acquired and no destructor gives back: `BpfObject` throws after
  `bpf_object__open` when `bpf_object__load` fails, and the destructor of an object that is not
  fully constructed does not run.
* `Books` are the accounts along a run: what is held are the resources of the constructed
  locals and, once the thread leaves, what is leaked.

`released_once_iff` reads them when `run_monitor` is left. -/

namespace EbpfMonitor

open Text

namespace RunMonitor

/-- The object that the map of the ring buffer belongs to. -/
def Ring.obj : Ring → Obj
  | .tcp => .tcp
  | .audit => .audit

/-- The resource that must not be given back before this one. -/
def Resource.owner : Resource → Option Resource
  | .object _ => none
  | .link l => some (.object l.obj)
  | .ring r => some (.object r.obj)

/-- The resource that the local owns. -/
def Local.resource : Local → Option Resource
  | .object o => some (.object o)
  | .link l => some (.link l)
  | .ringBuffer r => some (.ring r)
  | .reporter | .httpSrv | .httpThread => none

/-- The statement that throws. -/
def Env.thrower (env : Env) : Option Stmt := body.find? (fun st => (env.error st).isSome)

/-- What the constructor that throws has acquired. -/
def Env.leaked (env : Env) : Option Resource :=
  match env.thrower with
  | some (.object o) => if env.fails (.open o) then none else some (.object o)
  | _ => none

/-- The locals of `run_monitor`, the last one first. -/
def allLocals : List Local := (body.filterMap Stmt.decl).reverse

/-! ### What the statements acquire and the destructors release -/

theorem released_eq (x : Local) : x.released = x.resource.toList.map .release := by
  cases x <;> rfl

/-- Two checks in a row that both throw. -/
theorem checks_eq_none {α : Type} {a b : Bool} {x y : α} :
    (if a then some x else if b then some y else none) = none ↔ (a || b) = false := by
  cases a <;> cases b <;> simp

theorem error_object_eq_none {env : Env} {o : Obj} :
    env.error (.object o) = none ↔ (env.fails (.open o) || env.fails (.load o)) = false :=
  checks_eq_none

theorem error_link_eq_none {env : Env} {l : Link} :
    env.error (.link l) = none ↔ (env.fails (.findProgram l) || env.fails (.attach l)) = false :=
  checks_eq_none

theorem error_ringBuffer_eq_none {env : Env} {r : Ring} :
    env.error (.ringBuffer r) = none ↔ (env.fails (.findMap r) || env.fails (.ringBufferNew r)) = false :=
  checks_eq_none

/-- A statement that does not throw acquires the resource of the local it declares. -/
theorem acquired_of_pass {env : Env} {st : Stmt} (h : env.error st = none) :
    env.acquired st = (st.decl.bind Local.resource).toList.map .acquire := by
  cases st with
  | object o =>
      rw [error_object_eq_none, Bool.or_eq_false_iff] at h
      rw [Env.acquired, h.1]
      rfl
  | link l =>
      rw [error_link_eq_none] at h
      rw [Env.acquired, h]
      rfl
  | ringBuffer r =>
      rw [error_ringBuffer_eq_none] at h
      rw [Env.acquired, h]
      rfl
  | _ => rfl

/-- A statement that throws acquires what is leaked. -/
theorem acquired_of_thrower {env : Env} {st : Stmt} (h : env.thrower = some st) :
    env.acquired st = env.leaked.toList.map .acquire := by
  have herr : env.error st ≠ none :=
    Option.isSome_iff_ne_none.mp (List.find?_eq_some_iff_append.mp h).1
  unfold Env.leaked
  rw [h]
  cases st with
  | object o =>
      simp only [Env.acquired]
      split <;> rfl
  | link l =>
      rw [Ne, error_link_eq_none, Bool.not_eq_false] at herr
      rw [Env.acquired, herr]
      rfl
  | ringBuffer r =>
      rw [Ne, error_ringBuffer_eq_none, Bool.not_eq_false] at herr
      rw [Env.acquired, herr]
      rfl
  | _ => rfl

/-! ### The order of the declarations -/

/-- No resource is acquired twice. -/
theorem resource_notMem {passed rest : List Stmt} {st : Stmt} {r : Resource}
    (hbody : body = passed ++ st :: rest) (hr : st.decl.bind Local.resource = some r) :
    r ∉ (passed.filterMap Stmt.decl).reverse.filterMap Local.resource := by
  have hnodup : (body.filterMap (fun st => st.decl.bind Local.resource)).Nodup := by decide
  rw [hbody, List.filterMap_append, List.filterMap_cons, hr, List.nodup_append] at hnodup
  rw [List.filterMap_reverse, List.mem_reverse, List.filterMap_filterMap]
  intro hmem
  exact hnodup.2.2 r hmem r (List.mem_cons_self ..) rfl

/-- What an object owns is declared after it. -/
theorem owner_ne_of_suffix {x : Local} {rest : List Local} {r r' : Resource}
    (h : x :: rest <:+ allLocals) (hr : x.resource = some r)
    (hr' : r' ∈ (x :: rest).filterMap Local.resource) : r'.owner ≠ some r := by
  have hall : ∀ t ∈ allLocals.tails, ∀ r ∈ (t.head?.bind Local.resource).toList,
      ∀ r' ∈ t.filterMap Local.resource, r'.owner ≠ some r := by decide
  exact hall _ ((List.mem_tails _ _).mpr h) r (by simp [hr]) r' hr'

theorem leaked_eq_some {env : Env} {r : Resource} :
    env.leaked = some r ↔
      ∃ o, env.thrower = some (.object o) ∧ env.fails (.open o) = false ∧ r = .object o := by
  constructor
  · intro h
    unfold Env.leaked at h
    split at h
    next o hthrower =>
      obtain ⟨hopen, h⟩ := Option.ite_none_left_eq_some.mp h
      exact ⟨o, hthrower, Bool.eq_false_iff.mpr hopen, (Option.some.inj h).symm⟩
    next => cases h
  · rintro ⟨o, hthrower, hopen, rfl⟩
    simp only [Env.leaked, hthrower, hopen]
    rfl

namespace State

/-! ### The accounts along a run -/

open Lifetime

/-- What is held are the resources of the constructed locals and, once the main thread leaves,
what is leaked; the locals are those of the statements that have been passed. -/
structure Books (env : Env) (s : State) : Prop where
  legal : Legal [] s.trace
  nested : Nested Resource.owner s.trace
  inside : ∀ rest, s.main = .body rest → ∃ passed, body = passed ++ rest ∧
    (∀ st ∈ passed, env.error st = none) ∧ s.locals = (passed.filterMap Stmt.decl).reverse ∧
      live s.trace = s.locals.filterMap Local.resource
  leaving : ∀ what, s.main = .leaving what → s.locals <:+ allLocals ∧
    live s.trace = env.leaked.toList ++ s.locals.filterMap Local.resource

theorem books_init (env : Env) : Books env init := by
  refine ⟨trivial, .nil _, ?_, nofun⟩
  rintro _ ⟨⟩
  exact ⟨[], rfl, nofun, rfl, rfl⟩

/-- The first statement that throws is the one that is reached. -/
theorem thrower_of_split {env : Env} {passed rest : List Stmt} {st : Stmt} {what : Text}
    (hbody : body = passed ++ st :: rest) (hpassed : ∀ st ∈ passed, env.error st = none)
    (herr : env.error st = some what) : env.thrower = some st := by
  apply List.find?_eq_some_iff_append.mpr
  refine ⟨by rw [herr]; rfl, passed, rest, hbody, fun st' hst' => ?_⟩
  rw [hpassed st' hst']
  rfl

/-- The resource that the statement acquires is not held yet. -/
theorem resource_free {s : State} {passed rest : List Stmt} {st : Stmt}
    (hbody : body = passed ++ st :: rest) (hlocals : s.locals = (passed.filterMap Stmt.decl).reverse)
    (hlive : live s.trace = s.locals.filterMap Local.resource) :
    ∀ r ∈ st.decl.bind Local.resource, r ∉ live s.trace := by
  intro r hr
  rw [hlive, hlocals]
  exact resource_notMem hbody hr

theorem not_release_acquires {k : Option Resource} (r : Resource) :
    .release r ∉ k.toList.map Event.acquire := by
  simp

theorem Books.pass {env : Env} {s : State} {st : Stmt} {rest : List Stmt} (h : Books env s)
    (hmain : s.main = .body (st :: rest)) (herr : env.error st = none) :
    Books env (s.pass env st rest) := by
  obtain ⟨passed, hbody, hpassed, hlocals, hlive⟩ := h.inside _ hmain
  obtain ⟨hlegal, hlive'⟩ := h.legal.append_acquire (resource_free hbody hlocals hlive)
  rw [← acquired_of_pass herr] at hlegal hlive'
  refine ⟨hlegal, ?_, ?_, nofun⟩
  · refine h.nested.append_of_not_release (fun r => ?_)
    rw [acquired_of_pass herr]
    exact not_release_acquires r
  · rintro _ ⟨⟩
    refine ⟨passed ++ [st], by simp [hbody], ?_, ?_, ?_⟩
    · simpa [or_imp, forall_and] using ⟨hpassed, herr⟩
    · rw [State.pass, hlocals]
      cases hdecl : st.decl <;> simp [hdecl]
    · rw [State.pass, hlive', hlive]
      cases hdecl : st.decl with
      | none => rfl
      | some x => cases hx : x.resource <;> simp [hx]

/-- The locals of the statements that have been passed are a part of all. -/
theorem suffix_allLocals {passed rest : List Stmt} (hbody : body = passed ++ rest) :
    (passed.filterMap Stmt.decl).reverse <:+ allLocals := by
  rw [allLocals, hbody, List.filterMap_append, List.reverse_append]
  exact List.suffix_append _ _

theorem Books.throws {env : Env} {s : State} {st : Stmt} {rest : List Stmt} {what : Text}
    (h : Books env s) (hmain : s.main = .body (st :: rest)) (herr : env.error st = some what) :
    Books env { s with main := .leaving (some what), trace := s.trace ++ env.acquired st } := by
  obtain ⟨passed, hbody, hpassed, hlocals, hlive⟩ := h.inside _ hmain
  have hthrower := thrower_of_split hbody hpassed herr
  have hfree : ∀ r ∈ env.leaked, r ∉ live s.trace := by
    intro r hr
    obtain ⟨o, ho, _, rfl⟩ := leaked_eq_some.mp hr
    obtain rfl := Option.some.inj (hthrower.symm.trans ho)
    exact resource_free hbody hlocals hlive _ rfl
  obtain ⟨hlegal, hlive'⟩ := h.legal.append_acquire hfree
  rw [← acquired_of_thrower hthrower] at hlegal hlive'
  refine ⟨hlegal, ?_, nofun, ?_⟩
  · refine h.nested.append_of_not_release (fun r => ?_)
    rw [acquired_of_thrower hthrower]
    exact not_release_acquires r
  · rintro _ ⟨⟩
    refine ⟨?_, by rw [hlive', hlive]⟩
    rw [hlocals]
    exact suffix_allLocals hbody

theorem Books.returns {env : Env} {s : State} (h : Books env s) (hmain : s.main = .body []) :
    Books env { s with main := .leaving none } := by
  obtain ⟨passed, hbody, hpassed, hlocals, hlive⟩ := h.inside _ hmain
  have hnone : env.leaked = none := by
    have hthrower : env.thrower = none := by
      apply List.find?_eq_none.mpr
      intro st hst
      rw [hbody, List.append_nil] at hst
      simp [hpassed st hst]
    rw [Env.leaked, hthrower]
  refine ⟨h.legal, h.nested, nofun, ?_⟩
  rintro _ ⟨⟩
  refine ⟨?_, by rw [hnone, hlive]; rfl⟩
  rw [hlocals]
  exact suffix_allLocals hbody

theorem Books.destroy {env : Env} {s : State} {what : Option Text} {x : Local} {rest : List Local}
    (h : Books env s) (hmain : s.main = .leaving what) (hlocals : s.locals = x :: rest) :
    Books env (s.destroy x rest) := by
  obtain ⟨hsuffix, hlive⟩ := h.leaving what hmain
  rw [hlocals] at hsuffix hlive
  have hrest : rest <:+ allLocals := (List.suffix_cons x rest).trans hsuffix
  have hbody : ∀ r, (s.destroy x rest).main ≠ .body r := by
    intro r hr
    rw [State.destroy, hmain] at hr
    cases hr
  cases hx : x.resource with
  | none =>
      have htrace : (s.destroy x rest).trace = s.trace := by
        rw [State.destroy, released_eq, hx]
        exact List.append_nil _
      rw [List.filterMap_cons, hx] at hlive
      refine ⟨by rw [htrace]; exact h.legal, by rw [htrace]; exact h.nested,
        fun r hr => absurd hr (hbody r), fun _ _ => ⟨hrest, by rw [htrace]; exact hlive⟩⟩
  | some r =>
      have htrace : (s.destroy x rest).trace = s.trace ++ [.release r] := by
        rw [State.destroy, released_eq, hx]
        rfl
      have hheld : r ∈ live s.trace := by
        rw [hlive, List.filterMap_cons, hx]
        simp
      -- the leaked object is not that of a local, since nothing is acquired twice
      have hnot : r ∉ env.leaked.toList := by
        have hnodup : (live s.trace).Nodup := h.legal.nodup_foldl List.nodup_nil
        rw [hlive, List.filterMap_cons, hx, List.nodup_append] at hnodup
        exact fun hmem => hnodup.2.2 r hmem r (List.mem_cons_self ..) rfl
      refine ⟨?_, ?_, fun r hr => absurd hr (hbody r), fun _ _ => ⟨hrest, ?_⟩⟩
      · rw [htrace, legal_append]
        exact ⟨h.legal, hheld, trivial⟩
      · rw [htrace]
        refine h.nested.append_release (fun r' hr' => ?_)
        rw [hlive, List.mem_append] at hr'
        obtain hleak | hlocal := hr'
        · obtain ⟨o, _, _, rfl⟩ := leaked_eq_some.mp (Option.mem_toList.mp hleak)
          exact (Option.some_ne_none _).symm
        · exact owner_ne_of_suffix hsuffix hx hlocal
      · rw [htrace, live_append, hlive, List.filterMap_cons, hx]
        change (env.leaked.toList ++ r :: rest.filterMap Local.resource).erase r = _
        rw [List.erase_append_right _ hnot, List.erase_cons_head]
        rfl

/-- One step keeps the accounts. -/
theorem Books.move {env : Env} {s s' : State} (h : Books env s) (hm : Move env s s') : Books env s' := by
  cases hm with
  | signal => exact ⟨h.legal, h.nested, h.inside, h.leaving⟩
  | poll => exact h
  | throws hmain herr => exact h.throws hmain herr
  | pass hmain herr => exact h.pass hmain herr
  | returns hmain => exact h.returns hmain
  | destroy hmain hlocals hjoin => exact h.destroy hmain hlocals
  | http hl ha hstep => exact ⟨h.legal, h.nested, h.inside, h.leaving⟩

theorem Books.run {env : Env} {s : State} {as : List Action}
    (h : Runs.run (step env) init as = some s) : Books env s :=
  Runs.run_invariant (fun _ _ _ hbooks hstep => hbooks.move (move_of_step hstep)) (books_init env) h

/-! ### When `run_monitor` is left -/

/-- `run_monitor` has been left, normally or by an exception. -/
def Gone (s : State) : Prop := (∃ what, s.main = .leaving what) ∧ s.locals = []

/-- What is still held when `run_monitor` has been left. -/
theorem Books.live_of_gone {env : Env} {s : State} (h : Books env s) (hgone : s.Gone) :
    live s.trace = env.leaked.toList := by
  obtain ⟨⟨what, hmain⟩, hlocals⟩ := hgone
  rw [(h.leaving what hmain).2, hlocals]
  exact List.append_nil _

/-- **When `run_monitor` is left, everything that it has acquired from libbpf has been released
once, the links and the ring buffers before their object, exactly when no constructor has thrown
after opening its object.**  Whichever calls fail, what remains open is the object whose
`bpf_object__load` fails. -/
theorem released_once_iff {env : Env} {s : State} {as : List Action}
    (hrun : Runs.run (step env) init as = some s) (hgone : s.Gone) :
    (ReleasedOnce s.trace ∧ Nested Resource.owner s.trace) ↔
      ∀ o, env.thrower = some (.object o) → env.fails (.open o) = true := by
  have hbooks := Books.run hrun
  rw [and_iff_left hbooks.nested, releasedOnce_iff hbooks.legal, hbooks.live_of_gone hgone]
  constructor
  · intro hnil o ho
    by_contra hopen
    have hleak := leaked_eq_some.mpr ⟨o, ho, Bool.eq_false_iff.mpr hopen, rfl⟩
    rw [hleak] at hnil
    cases hnil
  · intro hopen
    rw [Option.toList_eq_nil_iff]
    apply Option.eq_none_iff_forall_ne_some.mpr
    intro r hr
    obtain ⟨o, ho, hfalse, _⟩ := leaked_eq_some.mp hr
    rw [hopen o ho] at hfalse
    cases hfalse

/-- The default configuration, where the calls `fails` fail and `start` succeeds. -/
def failing (fails : Call → Bool) : Env :=
  ⟨{}, fun _ => [], fails, [], ⟨some 3, none, true, some 4, none, some 5, none, 0, by decide⟩⟩

/-- A signal arrives in the loop, and the HTTP thread finishes before it is joined. -/
def untilSignal : List Action :=
  [List.replicate 12 .main, [.signal], List.replicate 5 .main,
    [.http (.wait [5]), .http .next, .http .leave], List.replicate 8 .main].flatten

/-- Nothing fails. -/
theorem released_once_iff_signal :
    ∃ s, Runs.run (step (failing (fun _ => false))) init untilSignal = some s ∧ s.Gone ∧
      ReleasedOnce s.trace ∧ Nested Resource.owner s.trace := by
  obtain ⟨s, hrun, hmain, hlocals⟩ :
      ∃ s, Runs.run (step (failing (fun _ => false))) init untilSignal = some s ∧
        s.main = .leaving none ∧ s.locals = [] := Runs.exists_run_of_any (by decide +kernel)
  have hgone : s.Gone := ⟨⟨none, hmain⟩, hlocals⟩
  have hnone : (failing (fun _ => false)).thrower = none := by decide +kernel
  refine ⟨s, hrun, hgone, (released_once_iff hrun hgone).mpr ?_⟩
  intro o ho
  rw [hnone] at ho
  cases ho

/-- `bpf_object__load` fails for the first object: `run_monitor` is left by the exception, and the
object stays open. -/
theorem failed_load_leaks :
    ∃ s, Runs.run (step (failing (fun c => match c with | .load .tcp => true | _ => false))) init
        [.main] = some s ∧ s.Gone ∧ ¬ ReleasedOnce s.trace := by
  obtain ⟨s, hrun, hmain, hlocals, htrace⟩ : ∃ s, Runs.run (step (failing (fun c =>
      match c with | .load .tcp => true | _ => false))) init [.main] = some s ∧
        s.main = .leaving (some "bpf_object__load failed: ".toList) ∧ s.locals = [] ∧
          live s.trace = [.object .tcp] := Runs.exists_run_of_any (by decide +kernel)
  refine ⟨s, hrun, ⟨⟨_, hmain⟩, hlocals⟩, ?_⟩
  rw [releasedOnce_iff (Books.run hrun).legal, htrace]
  exact List.cons_ne_nil _ _

end State

end RunMonitor

end EbpfMonitor
