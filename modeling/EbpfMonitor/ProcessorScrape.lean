import EbpfMonitor.BatchCalls
import EbpfMonitor.RingObserver

/-! # What a scrape says about the packets

The text of `from_processor` is always a valid exposition: every line is read, and the lines of each metric
stand together.  (`from_reporter` has neither property.)  Between two calls of the processor its four numbers
account for all packets: `processor_scrape_accounts`. -/

namespace EbpfMonitor

open Text Exposition

namespace PrometheusMetrics

/-- The lines of a metric follow each other. -/
theorem families_metric {name help type : Text} (hname : isName isNameStart isNameChar name = true)
    (hhelp : '\n' ∉ help) (htype : '\n' ∉ type) (value : BitVec 64) (nowMs : ℕ) (rest : Text) :
    families (metric name help type value nowMs ++ rest) = metricLines name ++ families rest := by
  have htext : render name [] value.toNat nowMs =
      name ++ ' ' :: (decimal value.toNat ++ ' ' :: decimal nowMs) := by
    simp [render]
  have hdecimal : ∀ n, '\n' ∉ decimal n := fun n =>
    not_mem_of_forall (fun c hc => isDigit_of_mem_decimal hc) (by decide)
  obtain ⟨more, hsample, hmore⟩ := families_of_name (decimal value.toNat ++ ' ' :: decimal nowMs) hname
    (show isNameChar ' ' = false by decide) (by decide)
  rw [hmore (by simp [hdecimal])] at hsample
  have hempty : families ('\n' :: rest) = families rest := families_append [] rest
  rw [metric_append, families_metadata hname hhelp htype, families_append, htext, hsample, hempty]
  rfl

theorem grouped_fromProcessor (s : ProcessorStats) (available : SizeT) (nowMs : ℕ) :
    Grouped (fromProcessor s available nowMs) := by
  have hfam : families (fromProcessor s available nowMs) = processorNames.flatMap metricLines := by
    rw [fromProcessor_eq, families_metric (by decide) (by decide) (by decide),
      families_metric (by decide) (by decide) (by decide), families_metric (by decide) (by decide) (by decide),
      families_metric (by decide) (by decide) (by decide)]
    rfl
  have hnodup : processorNames.Nodup := by decide
  intro name hname
  rw [hfam] at hname ⊢
  exact isGroup_metricLines hnodup hname

end PrometheusMetrics

namespace BatchProcessor

open PrometheusMetrics

variable {R P : Capacity}

/-- The text of `from_processor` for the processor of a session. -/
def Session.scrape (s : Session R P) (nowMs : ℕ) : Text :=
  fromProcessor s.proc.stats s.proc.pool.available nowMs

/-- The numbers of a scrape, in the order of the text. -/
structure Numbers where
  processed : ℕ
  dropped : ℕ
  bytes : ℕ
  available : ℕ

def Numbers.samples (n : Numbers) (nowMs : ℕ) : List Sample :=
  List.zipWith (fun name value => ⟨name, [], .number (Numeral.ofNat value), some (nowMs : ℤ)⟩) processorNames
    [n.processed, n.dropped, n.bytes, n.available]

/-- The numbers account for the packets: each one that was sent is counted as processed, counted as dropped
or still in the ring, and each slot is counted as available, in the ring or held by the caller. -/
structure Numbers.Account (n : Numbers) (s : Session R P) : Prop where
  processed : n.processed = s.handled.length % 2 ^ 64
  dropped : n.dropped = s.dropped % 2 ^ 64
  bytes : n.bytes = HandlerLoop.bytesAfter s.handled % 2 ^ 64
  sent : n.processed + n.dropped + s.proc.ring.size.toNat ≡ s.sent.length [MOD 2 ^ 64]
  sent_eq : s.sent.length < 2 ^ 64 → n.processed + n.dropped + s.proc.ring.size.toNat = s.sent.length
  slots : n.available + s.proc.ring.size.toNat + s.proc.held.length = P.size

/-- **A scrape between two calls accounts for every packet.**  For all ring and pool sizes, every handler and
every history of calls, the text of `from_processor` is read without an error, the lines of each metric stand
together, and the four numbers add up. -/
theorem processor_scrape_accounts (R P : Capacity) (handler : Handler P)
    (ringData : Fin R.size → Fin P.size) (poolData : Fin P.size → Fin P.size)
    (storage : Fin P.size → Packet) (calls : List (Call P)) (s : Session R P)
    (h : Runs.run (Session.step handler) (Session.start ringData poolData storage) calls = some s) (nowMs : ℕ) :
    Grouped (s.scrape nowMs) ∧ ∃ n : Numbers, parse (s.scrape nowMs) = some (n.samples nowMs) ∧ n.Account s := by
  obtain ⟨q, f, hok⟩ := Runs.run_invariant (P := fun s : Session R P => ∃ q f, s.Ok handler q f)
    (fun _ _ _ hok hs => Session.Ok.step hok hs) ⟨_, _, Session.Ok.start ringData poolData storage⟩ h
  have hsound := hok.sound
  refine ⟨grouped_fromProcessor _ _ _, ⟨s.proc.stats.pktsProcessed.toNat, s.proc.stats.pktsDropped.toNat,
    s.proc.stats.bytesProcessed.toNat, s.proc.pool.available.toNat⟩, parse_fromProcessor _ _ _, ?_⟩
  have hprocessed : s.proc.stats.pktsProcessed.toNat = s.handled.length % 2 ^ 64 := by
    rw [hsound.pktsProcessed, BitVec.toNat_ofNat]
  have hdropped : s.proc.stats.pktsDropped.toNat = s.dropped % 2 ^ 64 := by
    rw [hsound.pktsDropped, BitVec.toNat_ofNat]
  refine ⟨hprocessed, hdropped, ?_, ?_, fun hlt => (hsound.sends_counted hlt).symm, hsound.slots_add⟩
  · rw [hsound.bytesProcessed, BitVec.toNat_ofNat]
  · rw [hsound.sends]
    refine Nat.ModEq.add_right _ (Nat.ModEq.add ?_ ?_)
    · rw [hprocessed]
      exact Nat.mod_modEq _ _
    · rw [hdropped]
      exact Nat.mod_modEq _ _

theorem processor_scrape_accounts_drop :
    ∃ (s : Session oneSlot fourSlots) (n : Numbers),
      Runs.run (Session.step doubleFirst)
        (Session.start (fun _ => 0) (fun _ => 0) (fun _ => blankPacket)) dropAndProcess = some s ∧
      parse (s.scrape 7) = some (n.samples 7) ∧ n.Account s ∧ n.processed = 1 ∧ n.dropped = 1 := by
  obtain ⟨s, hs, hdropped, hhandled⟩ : ∃ s : Session oneSlot fourSlots,
      Runs.run (Session.step doubleFirst)
        (Session.start (fun _ => 0) (fun _ => 0) (fun _ => blankPacket)) dropAndProcess = some s ∧
      s.dropped = 1 ∧ s.handled.length = 1 :=
    Runs.exists_run_of_any (by decide +kernel)
  obtain ⟨-, n, hparse, hn⟩ := processor_scrape_accounts oneSlot fourSlots doubleFirst (fun _ => 0) (fun _ => 0)
    (fun _ => blankPacket) dropAndProcess s hs 7
  refine ⟨s, n, hs, hparse, hn, ?_, ?_⟩
  · simp [hn.processed, hhandled]
  · simp [hn.dropped, hdropped]

end BatchProcessor

end EbpfMonitor
