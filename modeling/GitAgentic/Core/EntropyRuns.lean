import GitAgentic.Core.Scanner
import GitAgentic.Data.MaximalRuns

/-! What the entropy pass reports: the maximal runs of base64-like bytes that are long
enough and suspicious, and what is left of a scan that skips it. -/
namespace GitAgentic.Scanner

open MaximalRuns

variable (S : Scanner) (bytes : Bytes)

def reported (place : RunPlace) : Bool :=
  minRunLength ≤ place.2 && S.suspicious ((bytes.drop place.1).take place.2)

def entropyHit (place : RunPlace) : Hit :=
  { kind := .highEntropy, offset := place.1, length := place.2 }

def highEntropyHits : List Hit := (S.scanImpl bytes).filter (fun h => h.kind = .highEntropy)

theorem maybeEmitEntropyHit_eq (start stop : Nat) :
    S.maybeEmitEntropyHit bytes start stop =
      ([(start, stop - start)].filter (S.reported bytes)).map entropyHit := by
  simp only [maybeEmitEntropyHit, reported, List.filter_singleton]
  by_cases short : stop - start < minRunLength
  · simp [short, Nat.not_le.mpr short]
  · by_cases suspicious : S.suspicious ((bytes.drop start).take (stop - start)) = true
    · simp [short, Nat.not_lt.mp short, suspicious, entropyHit]
    · simp [short, suspicious]

theorem entropyHits_eq (i : Nat) (runStart : Option Nat) (rest : Bytes) :
    S.entropyHits bytes i runStart rest =
      ((collect isBase64ish i runStart rest).filter (S.reported bytes)).map entropyHit := by
  induction rest generalizing i runStart with
  | nil =>
    cases runStart with
    | none => rfl
    | some start => exact S.maybeEmitEntropyHit_eq bytes start i
  | cons b rest ih =>
    rw [collect]
    by_cases holds : isBase64ish b = true
    · cases runStart <;> rw [entropyHits, if_pos holds, if_pos holds, ih]
    · rw [if_neg holds, List.filter_append, List.map_append, ← ih]
      cases runStart with
      | none =>
        rw [entropyHits, if_neg holds]
        rfl
      | some start =>
        rw [entropyHits, if_neg holds, maybeEmitEntropyHit_eq]
        rfl

theorem kind_of_mem_patternHits {h : Hit} (mem : h ∈ S.patternHits bytes) : h.kind ≠ .highEntropy := by
  obtain ⟨pattern, _, found⟩ := List.mem_flatMap.mp mem
  obtain ⟨place, _, rfl⟩ := List.mem_map.mp found
  exact HitKind.noConfusion

theorem highEntropyHits_eq :
    S.highEntropyHits bytes = ((runs isBase64ish bytes).filter (S.reported bytes)).map entropyHit := by
  have noPatterns : (S.patternHits bytes).filter (fun h => h.kind = .highEntropy) = [] := by
    refine List.filter_eq_nil_iff.mpr (fun h mem => ?_)
    rw [decide_eq_true_eq]
    exact S.kind_of_mem_patternHits bytes mem
  rw [highEntropyHits, scanImpl, List.filter_append, noPatterns, List.nil_append, entropyHits_eq,
    runs]
  refine List.filter_eq_self.mpr (fun h mem => ?_)
  obtain ⟨place, _, rfl⟩ := List.mem_map.mp mem
  rfl

theorem scanWith_skipEntropy : S.scanWith bytes { skipEntropy := true } = S.patternHits bytes := by
  have noRuns : (S.entropyHits bytes 0 none bytes).filter (fun h => h.kind ≠ .highEntropy) = [] := by
    rw [entropyHits_eq]
    refine List.filter_eq_nil_iff.mpr (fun h mem => ?_)
    obtain ⟨place, _, rfl⟩ := List.mem_map.mp mem
    rw [decide_eq_true_eq]
    exact fun other => other rfl
  rw [scanWith, if_pos rfl, scanImpl, List.filter_append, noRuns, List.append_nil]
  refine List.filter_eq_self.mpr (fun h mem => ?_)
  rw [decide_eq_true_eq]
  exact S.kind_of_mem_patternHits bytes mem

theorem mem_highEntropyHits_iff (h : Hit) :
    h ∈ S.highEntropyHits bytes ↔ h.kind = .highEntropy ∧
      IsMaximalRun isBase64ish bytes h.offset h.length ∧ minRunLength ≤ h.length ∧
      S.suspicious ((bytes.drop h.offset).take h.length) = true := by
  obtain ⟨kind, offset, length⟩ := h
  rw [highEntropyHits_eq, List.mem_map]
  constructor
  · rintro ⟨⟨start, len⟩, mem, same⟩
    cases same
    obtain ⟨run, reported⟩ := List.mem_filter.mp mem
    rw [Scanner.reported, Bool.and_eq_true, decide_eq_true_eq] at reported
    exact ⟨rfl, mem_runs_iff.mp run, reported.1, reported.2⟩
  · rintro ⟨same, run, long, suspicious⟩
    cases same
    refine ⟨(offset, length), List.mem_filter.mpr ⟨mem_runs_iff.mpr run, ?_⟩, rfl⟩
    rw [reported, Bool.and_eq_true, decide_eq_true_eq]
    exact ⟨long, suspicious⟩

theorem highEntropyHits_apart :
    (S.highEntropyHits bytes).Pairwise (fun a b => a.offset + a.length < b.offset) := by
  rw [highEntropyHits_eq, List.pairwise_map]
  exact (runs_apart isBase64ish bytes).filter _

/-- The hits of the entropy pass are the maximal runs it is about, from left to right and
apart from each other, and a scan that skips the pass has all other hits. -/
theorem scan_reports_runs :
    (∀ h, h ∈ S.highEntropyHits bytes ↔ h.kind = .highEntropy ∧
      IsMaximalRun isBase64ish bytes h.offset h.length ∧ minRunLength ≤ h.length ∧
      S.suspicious ((bytes.drop h.offset).take h.length) = true) ∧
    (∀ h ∈ S.highEntropyHits bytes, h.offset + h.length ≤ bytes.length) ∧
    (S.highEntropyHits bytes).Pairwise (fun a b => a.offset + a.length < b.offset) ∧
    S.scanImpl bytes = S.scanWith bytes { skipEntropy := true } ++ S.highEntropyHits bytes ∧
    (∀ h ∈ S.scanWith bytes { skipEntropy := true }, h.kind ≠ .highEntropy) := by
  refine ⟨S.mem_highEntropyHits_iff bytes, ?_, S.highEntropyHits_apart bytes, ?_, ?_⟩
  · intro h mem
    obtain ⟨_, run, _⟩ := (S.mem_highEntropyHits_iff bytes h).mp mem
    exact run.inside
  · rw [scanWith_skipEntropy, highEntropyHits_eq, scanImpl, entropyHits_eq, runs]
  · rw [scanWith_skipEntropy]
    exact fun h mem => S.kind_of_mem_patternHits bytes mem

end GitAgentic.Scanner
