import EbpfMonitor.Lib.Number
import EbpfMonitor.RunMonitor
import EbpfMonitor.TcpTracer

/-! # The filter options

From the command line to the probes: `parse_args` and the installation of the filters by
`run_monitor` in `src/monitor.cpp`, and `should_filter` in `bpf/tcp_tracer.bpf.c`.

* **Options.**  What `getopt_long` returns is a list of options with their arguments.
* **Numbers.**  `std::stoul` converts to 64 bits and throws when the value does not fit.  The
  casts keep the low bits.

A number goes through 64 bits, 32 bits in the array `filters` and, for a port, 16 bits in the
comparison, and zero means that there is no filter.  `filterOptions_exact_iff` says when the probes
that pass are those which the options ask for: when the numbers fit in 32 and in 16 bits. -/

namespace EbpfMonitor

open Text Numeral RunMonitor

/-! ### `parse_args` -/

/-- The exceptions of `std::stoul`. -/
inductive StoulError where
  | invalidArgument
  | outOfRange
deriving DecidableEq

/-- `std::stoul(s)`; a negative number is negated in 64 bits. -/
def stoul (s : Text) : Except StoulError (BitVec 64) :=
  match leadingInteger s with
  | none => .error .invalidArgument
  | some (negative, n) =>
      if n < 2 ^ 64 then .ok (if negative then -BitVec.ofNat 64 n else BitVec.ofNat 64 n)
      else .error .outOfRange

/-- The results of `getopt_long`. -/
inductive Opt where
  | filterPid (arg : Text)
  | filterPort (arg : Text)
  | port (arg : Text)
  | json
  | help
  | unknown
deriving DecidableEq

/-- What `parse_args` writes: `cfg`, `g_json` and the standard output. -/
structure Parsed where
  cfg : Config := {}
  json : Bool := false
  out : Text := []

def usage : Text :=
  "Usage: sudo ebpf-monitor [OPTIONS]\n".toList ++
    "  --filter-pid N   trace only PID N\n".toList ++
    "  --filter-port N  trace only port N\n".toList ++
    "  --port N         HTTP metrics port (default: 9090)\n".toList ++
    "  --json           emit JSON lines to stdout\n".toList

/-- `parse_args`: the value it returns, or the exception that leaves it. -/
def parseArgs (s : Parsed) : List Opt → Except StoulError (ℤ × Parsed)
  | [] => .ok (0, s)
  | .filterPid arg :: opts => do
      let v ← stoul arg
      parseArgs { s with cfg := { s.cfg with filterPid := v.setWidth 32 } } opts
  | .filterPort arg :: opts => do
      let v ← stoul arg
      parseArgs { s with cfg := { s.cfg with filterPort := v.setWidth 32 } } opts
  | .port arg :: opts => do
      let v ← stoul arg
      parseArgs { s with cfg := { s.cfg with httpPort := v.setWidth 16 } } opts
  | .json :: opts => parseArgs { s with json := true } opts
  | .help :: _ => .ok (-1, { s with out := s.out ++ usage })
  | .unknown :: _ => .ok (1, s)

/-! ### The filters -/

/-- `set_filter`, with what it writes to the standard error; `fails` says whether
`bpf_map__update_elem` fails. -/
def setFilter (fails : Bool) (filters : Filters) (idx : Fin 2) (val : BitVec 32) : Filters × Text :=
  if fails then (filters, "Warning: could not set filter\n".toList)
  else (Function.update filters idx val, [])

/-- What `run_monitor` does to the array `filters`, which starts with zeros. -/
def installFilters (fails : Fin 2 → Bool) (cfg : Config) : Filters × Text :=
  if cfg.filterPid ≠ 0 ∨ cfg.filterPort ≠ 0 then
    let s : Filters × Text := (fun _ => 0, [])
    let s :=
      if cfg.filterPid ≠ 0 then setFilter (fails Filters.pidIndex) s.1 Filters.pidIndex cfg.filterPid
      else s
    if cfg.filterPort ≠ 0 then
      let t := setFilter (fails Filters.portIndex) s.1 Filters.portIndex cfg.filterPort
      (t.1, s.2 ++ t.2)
    else s
  else (fun _ => 0, [])

/-- The filters after an installation in which every update succeeds. -/
def installedFilters (cfg : Config) : Filters := (installFilters (fun _ => false) cfg).1

/-- A value of zero is not installed, which makes no difference. -/
theorem installedFilters_apply (cfg : Config) :
    installedFilters cfg 0 = cfg.filterPid ∧ installedFilters cfg 1 = cfg.filterPort := by
  unfold installedFilters installFilters setFilter
  by_cases hpid : cfg.filterPid = 0#32 <;> by_cases hport : cfg.filterPort = 0#32 <;> simp [hpid, hport]

/-! ### What the options ask for -/

/-- The argument of the last option that `pick` selects. -/
def lastArg (pick : Opt → Option Text) : List Opt → Option Text
  | [] => none
  | o :: opts => (lastArg pick opts).or (pick o)

def Opt.pidArg : Opt → Option Text
  | filterPid arg => some arg
  | _ => none

def Opt.portArg : Opt → Option Text
  | filterPort arg => some arg
  | _ => none

/-- The options ask for this process and this port. -/
def Selects (opts : List Opt) (pid : BitVec 32) (dport : BitVec 16) : Prop :=
  (∀ arg, lastArg Opt.pidArg opts = some arg → pid.toNat = digitsValue arg) ∧
    ∀ arg, lastArg Opt.portArg opts = some arg → dport.toNat = digitsValue arg

/-! ### What `parse_args` makes of them -/

/-- An option after which `parse_args` goes on, with what it does. -/
inductive Accepts : Parsed → Opt → Parsed → Prop where
  | filterPid {s : Parsed} {arg : Text} {v : BitVec 64} (h : stoul arg = .ok v) :
      Accepts s (.filterPid arg) { s with cfg := { s.cfg with filterPid := v.setWidth 32 } }
  | filterPort {s : Parsed} {arg : Text} {v : BitVec 64} (h : stoul arg = .ok v) :
      Accepts s (.filterPort arg) { s with cfg := { s.cfg with filterPort := v.setWidth 32 } }
  | port {s : Parsed} {arg : Text} {v : BitVec 64} (h : stoul arg = .ok v) :
      Accepts s (.port arg) { s with cfg := { s.cfg with httpPort := v.setWidth 16 } }
  | json {s : Parsed} : Accepts s .json { s with json := true }

section parse

variable {s t : Parsed} {o : Opt} {opts : List Opt}

theorem accepts_of_parseArgs (h : parseArgs s (o :: opts) = .ok (0, t)) :
    ∃ s', Accepts s o s' ∧ parseArgs s' opts = .ok (0, t) := by
  cases o with
  | filterPid arg =>
      obtain ⟨v, hv, hrest⟩ := Throw.bind_eq_ok.mp h
      exact ⟨_, .filterPid hv, hrest⟩
  | filterPort arg =>
      obtain ⟨v, hv, hrest⟩ := Throw.bind_eq_ok.mp h
      exact ⟨_, .filterPort hv, hrest⟩
  | port arg =>
      obtain ⟨v, hv, hrest⟩ := Throw.bind_eq_ok.mp h
      exact ⟨_, .port hv, hrest⟩
  | json => exact ⟨_, .json, h⟩
  | help => simp [parseArgs] at h
  | unknown => simp [parseArgs] at h

theorem parseArgs_of_accepts {s' : Parsed} (h : Accepts s o s') : parseArgs s (o :: opts) = parseArgs s' opts := by
  cases h with
  | filterPid h | filterPort h | port h =>
      rw [parseArgs, h]
      rfl
  | json => rfl

/-- A field that is written by one option only: the last such option determines it, and without
one it is as before. -/
theorem field_of_parseArgs (field : Parsed → BitVec 32) (pick : Opt → Option Text)
    (hsome : ∀ s o t arg, Accepts s o t → pick o = some arg →
      ∃ v, stoul arg = .ok v ∧ field t = v.setWidth 32)
    (hnone : ∀ s o t, Accepts s o t → pick o = none → field t = field s)
    (h : parseArgs s opts = .ok (0, t)) :
    (∀ arg, lastArg pick opts = some arg → ∃ v, stoul arg = .ok v ∧ field t = v.setWidth 32) ∧
      (lastArg pick opts = none → field t = field s) := by
  induction opts generalizing s with
  | nil =>
      obtain rfl : s = t := congrArg Prod.snd (Except.ok.inj h)
      refine ⟨fun arg harg => ?_, fun _ => rfl⟩
      cases harg
  | cons o opts ih =>
      obtain ⟨s', hs', hrest⟩ := accepts_of_parseArgs h
      obtain ⟨hlast, hfirst⟩ := ih hrest
      rw [lastArg]
      cases hopts : lastArg pick opts with
      | some arg' =>
          refine ⟨fun arg harg => ?_, fun harg => ?_⟩
          · obtain rfl : arg' = arg := by simpa using harg
            exact hlast _ hopts
          · cases harg
      | none =>
          rw [hfirst hopts, Option.none_or]
          exact ⟨fun arg harg => hsome s o s' arg hs' harg, fun harg => hnone s o s' hs' harg⟩

theorem filterPid_of_parseArgs (h : parseArgs s opts = .ok (0, t)) :
    (∀ arg, lastArg Opt.pidArg opts = some arg →
      ∃ v, stoul arg = .ok v ∧ t.cfg.filterPid = v.setWidth 32) ∧
      (lastArg Opt.pidArg opts = none → t.cfg.filterPid = s.cfg.filterPid) := by
  refine field_of_parseArgs (fun s => s.cfg.filterPid) Opt.pidArg ?_ ?_ h
  · rintro s o t arg (hv | hv | hv | _) harg
    case filterPid => exact ⟨_, Option.some.inj harg ▸ hv, rfl⟩
    all_goals cases harg
  · rintro s o t (hv | hv | hv | _) harg
    case filterPid => cases harg
    all_goals rfl

theorem filterPort_of_parseArgs (h : parseArgs s opts = .ok (0, t)) :
    (∀ arg, lastArg Opt.portArg opts = some arg →
      ∃ v, stoul arg = .ok v ∧ t.cfg.filterPort = v.setWidth 32) ∧
      (lastArg Opt.portArg opts = none → t.cfg.filterPort = s.cfg.filterPort) := by
  refine field_of_parseArgs (fun s => s.cfg.filterPort) Opt.portArg ?_ ?_ h
  · rintro s o t arg (hv | hv | hv | _) harg
    case filterPort => exact ⟨_, Option.some.inj harg ▸ hv, rfl⟩
    all_goals cases harg
  · rintro s o t (hv | hv | hv | _) harg
    case filterPort => cases harg
    all_goals rfl

end parse

/-- What `std::stoul` makes of a text of digits. -/
theorem stoul_digits {arg : Text} (hne : arg ≠ []) (hdigits : ∀ c ∈ arg, c.isDigit = true) :
    stoul arg = if digitsValue arg < 2 ^ 64 then .ok (BitVec.ofNat 64 (digitsValue arg))
      else .error .outOfRange := by
  rw [stoul, leadingInteger_digits hne hdigits]
  rfl

theorem toNat_of_stoul {arg : Text} {v : BitVec 64} (h : stoul arg = .ok v)
    (hdigits : ∀ c ∈ arg, c.isDigit = true) : v.toNat = digitsValue arg := by
  by_cases hne : arg = []
  · subst hne
    cases h
  · rw [stoul_digits hne hdigits] at h
    split_ifs at h with hlt
    obtain rfl := Except.ok.inj h
    rw [BitVec.toNat_ofNat]
    exact Nat.mod_eq_of_lt hlt

/-! ### From the options to the probes -/

/-- There is a process with every number. -/
theorem Probe.pid_process (pid : BitVec 32) : (Probe.process pid).pid = pid := by
  apply BitVec.eq_of_toNat_eq
  have hlt := pid.isLt
  simp only [Probe.process, Task.pid, BitVec.toNat_setWidth, BitVec.toNat_ushiftRight,
    BitVec.toNat_shiftLeft, Nat.shiftLeft_eq, Nat.shiftRight_eq_div_pow]
  omega

/-- One filter: `f` is in the array, `x` of `w` bits is compared with it, and the option was given the
argument `last`, which fits in `w` bits. -/
theorem compares_iff {w : ℕ} (hw : w ≤ 32) {f : BitVec 32} (x : BitVec w) {last : Option Text}
    (hfield : (∀ arg, last = some arg → ∃ v, stoul arg = .ok v ∧ f = v.setWidth 32) ∧
      (last = none → f = 0))
    (hdigits : ∀ arg, last = some arg → (∀ c ∈ arg, c.isDigit = true) ∧ digitsValue arg ≠ 0)
    (hlt : ∀ arg, last = some arg → digitsValue arg < 2 ^ w) :
    (f ≠ 0 → x = f.setWidth w) ↔ ∀ arg, last = some arg → x.toNat = digitsValue arg := by
  cases last with
  | none => simp [hfield.2 rfl]
  | some arg =>
      obtain ⟨v, hv, hf⟩ := hfield.1 arg rfl
      have hvalue := toNat_of_stoul hv (hdigits arg rfl).1
      have hpow : 2 ^ w ≤ 2 ^ 32 := Nat.pow_le_pow_right (by decide) hw
      have hfvalue : f.toNat = digitsValue arg := by
        rw [hf, BitVec.toNat_setWidth, hvalue]
        exact Nat.mod_eq_of_lt (Nat.lt_of_lt_of_le (hlt arg rfl) hpow)
      have hne : f ≠ 0 := by
        intro hzero
        rw [hzero] at hfvalue
        exact (hdigits arg rfl).2 hfvalue.symm
      have hx : x = f.setWidth w ↔ x.toNat = digitsValue arg := by
        rw [← BitVec.toNat_inj, BitVec.toNat_setWidth, hfvalue, Nat.mod_eq_of_lt (hlt arg rfl)]
      constructor
      · intro himp arg' harg'
        obtain rfl := Option.some.inj harg'
        exact hx.mp (himp hne)
      · intro hall _
        exact hx.mpr (hall arg rfl)

/-- **When a numeric filter means what it says.**  `parse_args` has accepted the options, and the last
argument of each filter option is a text of digits with a non-zero value.  The connects that pass
`should_filter` once the filters are installed are those of the process and the port that the options
ask for exactly when the process fits in 32 bits and the port in 16. -/
theorem filterOptions_exact_iff {opts : List Opt} {args : Parsed}
    (h : parseArgs {} opts = .ok (0, args))
    (hpid : ∀ arg, lastArg Opt.pidArg opts = some arg →
      (∀ c ∈ arg, c.isDigit = true) ∧ digitsValue arg ≠ 0)
    (hport : ∀ arg, lastArg Opt.portArg opts = some arg →
      (∀ c ∈ arg, c.isDigit = true) ∧ digitsValue arg ≠ 0) :
    (∀ (cur : Task) (sk : Sock), shouldFilter (installedFilters args.cfg) cur.pid sk.dport = false ↔
      Selects opts cur.pid sk.dport) ↔
    (∀ arg, lastArg Opt.pidArg opts = some arg → digitsValue arg < 2 ^ 32) ∧
      ∀ arg, lastArg Opt.portArg opts = some arg → digitsValue arg < 2 ^ 16 := by
  obtain ⟨hzero, hone⟩ := installedFilters_apply args.cfg
  simp only [shouldFilter_eq_false_iff, hzero, hone]
  constructor
  · intro hexact
    -- a connect of the process and the port that are in the array passes
    have hselects := (hexact (Probe.process args.cfg.filterPid)
      { Probe.webSock with skcDport := bswap16 (args.cfg.filterPort.setWidth 16) }).mp
        ⟨fun _ => Probe.pid_process _, fun _ => bswap16_bswap16 _⟩
    refine ⟨fun arg harg => ?_, fun arg harg => ?_⟩
    · rw [← hselects.1 arg harg]
      exact BitVec.isLt _
    · rw [← hselects.2 arg harg]
      exact BitVec.isLt _
  · rintro ⟨hpidLt, hportLt⟩ cur sk
    have hpidIff := compares_iff (by decide) cur.pid (filterPid_of_parseArgs h) hpid hpidLt
    have hportIff := compares_iff (by decide) sk.dport (filterPort_of_parseArgs h) hport hportLt
    rw [BitVec.setWidth_eq] at hpidIff
    rw [hpidIff, hportIff, Selects]

/-- `--filter-pid 7 --filter-port 443` selects the connects of process 7 to port 443. -/
theorem filterOptions_exact_small :
    ∃ args, parseArgs {} [.filterPid ['7'], .filterPort ['4', '4', '3']] = .ok (0, args) ∧
      ∀ (cur : Task) (sk : Sock), shouldFilter (installedFilters args.cfg) cur.pid sk.dport = false ↔
        Selects [.filterPid ['7'], .filterPort ['4', '4', '3']] cur.pid sk.dport := by
  have hpid : stoul ['7'] = .ok 7 := by decide +kernel
  have hport : stoul ['4', '4', '3'] = .ok 443 := by decide +kernel
  have hparse : parseArgs {} [.filterPid ['7'], .filterPort ['4', '4', '3']] =
      .ok (0, { cfg := { filterPid := 7, filterPort := 443 } }) := by
    rw [parseArgs_of_accepts (.filterPid hpid), parseArgs_of_accepts (.filterPort hport)]
    rfl
  refine ⟨_, hparse, (filterOptions_exact_iff hparse ?_ ?_).mpr ⟨?_, ?_⟩⟩
  all_goals
    intro arg harg
    obtain rfl := Option.some.inj harg
  · exact ⟨List.all_eq_true.mp rfl, by decide +kernel⟩
  · exact ⟨List.all_eq_true.mp rfl, by decide +kernel⟩
  · decide +kernel
  · decide +kernel

/-- **Numbers that do not fit change their meaning**: `--filter-pid 4294967296` switches the filter
off, `--filter-pid 4294967301` selects process 5, and `--filter-port 65616` selects port 80. -/
theorem filterOptions_wrap :
    (∃ args, parseArgs {} [.filterPid "4294967296".toList] = .ok (0, args) ∧
      ∀ pid dport, shouldFilter (installedFilters args.cfg) pid dport = false ∧
        ¬ Selects [.filterPid "4294967296".toList] pid dport) ∧
    (∃ args, parseArgs {} [.filterPid "4294967301".toList] = .ok (0, args) ∧
      shouldFilter (installedFilters args.cfg) (Probe.process 5).pid Probe.webSock.dport = false ∧
      ¬ Selects [.filterPid "4294967301".toList] (Probe.process 5).pid Probe.webSock.dport) ∧
    ∃ args, parseArgs {} [.filterPort "65616".toList] = .ok (0, args) ∧
      shouldFilter (installedFilters args.cfg) (Probe.process 5).pid 80 = false ∧
      ¬ Selects [.filterPort "65616".toList] (Probe.process 5).pid 80 := by
  have hoff : stoul "4294967296".toList = .ok 4294967296 := by decide +kernel
  have hother : stoul "4294967301".toList = .ok 4294967301 := by decide +kernel
  have hport : stoul "65616".toList = .ok 65616 := by decide +kernel
  refine ⟨⟨_, parseArgs_of_accepts (.filterPid hoff), fun pid dport => ⟨?_, fun h => ?_⟩⟩,
    ⟨_, parseArgs_of_accepts (.filterPid hother), by decide +kernel, fun h => ?_⟩,
    ⟨_, parseArgs_of_accepts (.filterPort hport), by decide +kernel, fun h => ?_⟩⟩
  · rw [shouldFilter_eq_false_iff, (installedFilters_apply _).1, (installedFilters_apply _).2]
    exact ⟨fun hne => absurd rfl hne, fun hne => absurd rfl hne⟩
  · have hvalue : digitsValue "4294967296".toList = 4294967296 := by decide +kernel
    have hpid := h.1 _ rfl
    rw [hvalue] at hpid
    exact absurd pid.isLt (by omega)
  · exact absurd (h.1 _ rfl) (by decide +kernel)
  · exact absurd (h.2 _ rfl) (by decide +kernel)

end EbpfMonitor
