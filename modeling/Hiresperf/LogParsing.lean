import Hiresperf.LogEntry
import Mathlib.Data.List.Dedup

/-!
# Differences of counters

The front part of `parse_hrperf_log_polars` in `parse_hrp.py` (sort, previous
values, differences) and `calc_data_in_range` of
`parse_hrp_instructed_profile.py`. All columns are unsigned 64-bit, and their
subtraction wraps at 64 bits. Neither knows the width of the hardware counters.
-/

namespace LogParsing

/-- The counter columns that both programs subtract. -/
inductive Counter where
  | stallMem
  | instRetire
  | stallsSb
  | cpuUnhalt
  | llcMisses
  | swPrefetch
  deriving DecidableEq

structure Row where
  cpuId : BitVec 32
  timestamp : BitVec 64
  value : Counter → BitVec 64

/-- A row with the differences to the row before it on the same CPU, without the raw columns. -/
structure DiffRow where
  cpuId : BitVec 32
  timestamp : BitVec 64
  timeDelta : BitVec 64
  diff : Counter → BitVec 64

def diffRow (prev row : Row) : DiffRow where
  cpuId := row.cpuId
  timestamp := row.timestamp
  timeDelta := row.timestamp - prev.timestamp
  diff c := row.value c - prev.value c

/-! ## `parse_hrperf_log_polars` -/

def rowLe (a b : Row) : Bool :=
  decide (a.cpuId.toInt < b.cpuId.toInt) ||
    (a.cpuId == b.cpuId && decide (a.timestamp.toNat ≤ b.timestamp.toNat))

/-- `df.sort(["cpu_id", "timestamp"])`. -/
def sortRows (rows : List Row) : List Row := rows.mergeSort rowLe

/-- `shift(1).over("cpu_id")`: each row with the one before it on its CPU. -/
def withPrev : (BitVec 32 → Option Row) → List Row → List (Row × Option Row)
  | _, [] => []
  | last, row :: rest =>
    (row, last row.cpuId) :: withPrev (Function.update last row.cpuId (some row)) rest

/-- The row stays if `time_delta_us > 0`; a null is no number above 0. -/
def keptDiff (p : Row × Option Row) : Option DiffRow :=
  p.2.bind fun prev => if p.1.timestamp = prev.timestamp then none else some (diffRow prev p.1)

/-- `cpu_id` of the command line, with `none` for -1. -/
def selectCpu (cpuId : Option (BitVec 32)) (rows : List Row) : List Row :=
  match cpuId with
  | none => rows
  | some cpu => rows.filter fun row => row.cpuId == cpu

def logDiffs (cpuId : Option (BitVec 32)) (rows : List Row) : List DiffRow :=
  (withPrev (fun _ => none) (sortRows (selectCpu cpuId rows))).filterMap keptDiff

/-! ## `calc_data_in_range` -/

/-- `pd.merge(df_end, df_start, on='cpu_id')` and the differences of the merged columns. -/
def rangeDiffs (tMin tMax : BitVec 64) (rows : List Row) : List DiffRow :=
  (rows.filter fun row => row.timestamp == tMax).flatMap fun last =>
    ((rows.filter fun row => row.timestamp == tMin).filter fun first =>
      first.cpuId == last.cpuId).map fun first => diffRow first last

/-- The timestamps that occur in a range, each once. -/
def rangeTimestamps (start stop : BitVec 64) (rows : List Row) : List (BitVec 64) :=
  ((rows.map Row.timestamp).filter fun t =>
    decide (start.toNat ≤ t.toNat) && decide (t.toNat ≤ stop.toNat)).dedup

/-- The frame `diff` of `calc_data_in_range`; `none` where the assertion of exactly two
timestamps fails. -/
def calcDataInRange (start stop : BitVec 64) (cpuId : Option (BitVec 32)) (rows : List Row) :
    Option (List DiffRow) :=
  match rangeTimestamps start stop rows with
  | [t, u] =>
    let diffs := if t.toNat ≤ u.toNat then rangeDiffs t u rows else rangeDiffs u t rows
    some (match cpuId with
      | none => diffs
      | some cpu => diffs.filter fun row => row.cpuId == cpu)
  | _ => none

/-! ## What a CPU's rows become -/

/-- The neighbours in a list. -/
def consecutive {A : Type} (l : List A) : List (A × A) := l.zip l.tail

theorem rowLe_trans (a b c : Row) (hab : rowLe a b = true) (hbc : rowLe b c = true) :
    rowLe a c = true := by
  simp only [rowLe, Bool.or_eq_true, Bool.and_eq_true, decide_eq_true_eq, beq_iff_eq] at *
  rcases hab with hab | ⟨hab, htab⟩
  · rcases hbc with hbc | ⟨hbc, -⟩
    · exact Or.inl (by omega)
    · exact Or.inl (hbc ▸ hab)
  · rcases hbc with hbc | ⟨hbc, htbc⟩
    · exact Or.inl (hab ▸ hbc)
    · exact Or.inr ⟨hab.trans hbc, by omega⟩

theorem rowLe_total (a b : Row) : (rowLe a b || rowLe b a) = true := by
  simp only [rowLe, Bool.or_eq_true, Bool.and_eq_true, decide_eq_true_eq, beq_iff_eq]
  rcases Int.lt_trichotomy a.cpuId.toInt b.cpuId.toInt with hlt | heq | hgt
  · exact Or.inl (Or.inl hlt)
  · have hcpu : a.cpuId = b.cpuId := BitVec.eq_of_toInt_eq heq
    rcases Nat.le_total a.timestamp.toNat b.timestamp.toNat with hle | hge
    · exact Or.inl (Or.inr ⟨hcpu, hle⟩)
    · exact Or.inr (Or.inr ⟨hcpu.symm, hge⟩)
  · exact Or.inr (Or.inl hgt)

/-- Sorting keeps the rows of a CPU in place if they are in time order already. -/
theorem filter_sortRows {rows : List Row} {cpu : BitVec 32}
    (h : (rows.filter fun row => row.cpuId == cpu).Pairwise
      fun a b => a.timestamp.toNat ≤ b.timestamp.toNat) :
    ((sortRows rows).filter fun row => row.cpuId == cpu) =
      rows.filter fun row => row.cpuId == cpu := by
  have hsorted : (rows.filter fun row => row.cpuId == cpu).Pairwise
      fun a b => rowLe a b = true := by
    apply h.imp_of_mem
    intro a b ha hb hab
    have hcpus : a.cpuId = b.cpuId := by
      rw [beq_iff_eq.mp (List.mem_filter.mp ha).2, beq_iff_eq.mp (List.mem_filter.mp hb).2]
    simp [rowLe, hcpus, hab]
  have hsub := (List.sublist_mergeSort rowLe_trans rowLe_total hsorted
    List.filter_sublist).filter fun row => row.cpuId == cpu
  have hperm : ((sortRows rows).filter fun row => row.cpuId == cpu).Perm
      (rows.filter fun row => row.cpuId == cpu) := (List.mergeSort_perm rows rowLe).filter _
  have hself : ((rows.filter fun row => row.cpuId == cpu).filter fun row => row.cpuId == cpu) =
      rows.filter fun row => row.cpuId == cpu := by simp
  rw [hself] at hsub
  exact (hsub.eq_of_length hperm.length_eq.symm).symm

/-- On one CPU, each row goes with its predecessor. -/
def withPrevRow : Option Row → List Row → List (Row × Option Row)
  | _, [] => []
  | prev, row :: rest => (row, prev) :: withPrevRow (some row) rest

theorem filter_withPrev (cpu : BitVec 32) (last : BitVec 32 → Option Row) (rows : List Row) :
    ((withPrev last rows).filter fun p => p.1.cpuId == cpu) =
      withPrevRow (last cpu) (rows.filter fun row => row.cpuId == cpu) := by
  induction rows generalizing last with
  | nil => rfl
  | cons row rest ih =>
    by_cases hcpu : row.cpuId = cpu
    · subst hcpu
      simp [withPrev, withPrevRow, ih]
    · have hother : Function.update last row.cpuId (some row) cpu = last cpu :=
        Function.update_of_ne (Ne.symm hcpu) _ _
      simp [withPrev, hcpu, ih, hother]

theorem filterMap_withPrevRow {prev : Row} {rows : List Row}
    (h : (prev :: rows).IsChain fun a b => a.timestamp ≠ b.timestamp) :
    (withPrevRow (some prev) rows).filterMap keptDiff =
      (consecutive (prev :: rows)).map fun p => diffRow p.1 p.2 := by
  induction rows generalizing prev with
  | nil => rfl
  | cons row rest ih =>
    rw [List.isChain_cons_cons] at h
    have hkept : keptDiff (row, some prev) = some (diffRow prev row) := by
      simp [keptDiff, Ne.symm h.1]
    rw [withPrevRow, List.filterMap_cons, hkept, ih h.2]
    rfl

theorem keptDiff_cpuId {p : Row × Option Row} {d : DiffRow} (h : keptDiff p = some d) :
    d.cpuId = p.1.cpuId := by
  simp only [keptDiff, Option.bind_eq_some_iff] at h
  obtain ⟨prev, -, hd⟩ := h
  split_ifs at hd
  cases hd
  rfl

theorem map_fst_withPrev (last : BitVec 32 → Option Row) (rows : List Row) :
    (withPrev last rows).map Prod.fst = rows := by
  induction rows generalizing last with
  | nil => rfl
  | cons row rest ih => rw [withPrev, List.map_cons, ih]

theorem exists_row_of_mem_logDiffs {cpuId : Option (BitVec 32)} {rows : List Row} {d : DiffRow}
    (h : d ∈ logDiffs cpuId rows) : ∃ row ∈ selectCpu cpuId rows, row.cpuId = d.cpuId := by
  obtain ⟨p, hp, hd⟩ := List.mem_filterMap.mp h
  refine ⟨p.1, ?_, (keptDiff_cpuId hd).symm⟩
  have hrow : p.1 ∈ (withPrev (fun _ => none) (sortRows (selectCpu cpuId rows))).map Prod.fst :=
    List.mem_map_of_mem hp
  rwa [map_fst_withPrev, sortRows, (List.mergeSort_perm _ _).mem_iff] at hrow

/-- Only a CPU that was asked for has differences. -/
theorem cpuId_of_mem_logDiffs {cpuId : Option (BitVec 32)} {rows : List Row} {d : DiffRow}
    (h : d ∈ logDiffs cpuId rows) : cpuId = none ∨ cpuId = some d.cpuId := by
  obtain ⟨row, hrow, hcpu⟩ := exists_row_of_mem_logDiffs h
  cases cpuId with
  | none => exact Or.inl rfl
  | some cpu =>
    have hselected := beq_iff_eq.mp (List.mem_filter.mp hrow).2
    rw [← hcpu, hselected]
    exact Or.inr rfl

theorem logDiffs_of_cpu {rows : List Row} {cpu : BitVec 32} {cpuId : Option (BitVec 32)}
    (hkept : cpuId = none ∨ cpuId = some cpu)
    (h : (rows.filter fun row => row.cpuId == cpu).Pairwise
      fun a b => a.timestamp.toNat < b.timestamp.toNat) :
    ((logDiffs cpuId rows).filter fun row => row.cpuId == cpu) =
      (consecutive (rows.filter fun row => row.cpuId == cpu)).map fun p => diffRow p.1 p.2 := by
  have hselect : ((selectCpu cpuId rows).filter fun row => row.cpuId == cpu) =
      rows.filter fun row => row.cpuId == cpu := by
    rcases hkept with rfl | rfl <;> simp [selectCpu]
  have hfilter : ((logDiffs cpuId rows).filter fun row => row.cpuId == cpu) =
      ((withPrev (fun _ => none) (sortRows (selectCpu cpuId rows))).filter fun p =>
        p.1.cpuId == cpu).filterMap keptDiff := by
    rw [logDiffs, List.filter_filterMap, List.filterMap_filter]
    apply List.filterMap_congr
    intro p _
    cases hp : keptDiff p with
    | none => simp
    | some d => simp [Option.filter, keptDiff_cpuId hp]
  rw [hfilter, filter_withPrev, filter_sortRows (by rw [hselect]; exact h.imp Nat.le_of_lt), hselect]
  cases hrows : rows.filter fun row => row.cpuId == cpu with
  | nil => rfl
  | cons first rest =>
    rw [hrows] at h
    have hchain : (first :: rest).IsChain fun a b => a.timestamp ≠ b.timestamp := by
      apply (List.Pairwise.isChain h).imp
      intro a b hlt heq
      rw [heq] at hlt
      omega
    exact filterMap_withPrevRow hchain

/-! ## Counters of 48 bits -/

/-- A sample with the true number of events since the beginning. -/
structure Sample where
  cpuId : BitVec 32
  timestamp : BitVec 64
  count : Counter → Nat

/-- The hardware counter is 48 bits wide and logged as it is read. -/
def Sample.logged (s : Sample) : Row where
  cpuId := s.cpuId
  timestamp := s.timestamp
  value c := BitVec.ofNat 64 (s.count c % 2 ^ 48)

def ofCpu (cpu : BitVec 32) (log : List Sample) : List Sample :=
  log.filter fun s => s.cpuId == cpu

/-- Each CPU is sampled at increasing times, and between two samples no counter grows by
2^48 or more. -/
def Sampled (log : List Sample) : Prop :=
  ∀ cpu, (ofCpu cpu log).IsChain fun s t => s.timestamp.toNat < t.timestamp.toNat ∧
    ∀ c, s.count c ≤ t.count c ∧ t.count c - s.count c < 2 ^ 48

theorem filter_map_logged (log : List Sample) (cpu : BitVec 32) :
    ((log.map Sample.logged).filter fun row => row.cpuId == cpu) =
      (ofCpu cpu log).map Sample.logged := by
  rw [List.filter_map]
  rfl

theorem Sampled.increasing {log : List Sample} (h : Sampled log) (cpu : BitVec 32) :
    (ofCpu cpu log).Pairwise fun s t => s.timestamp.toNat < t.timestamp.toNat := by
  have hchain : (ofCpu cpu log).IsChain fun s t => s.timestamp.toNat < t.timestamp.toNat :=
    (h cpu).imp fun _ _ hst => hst.1
  have : Trans (fun s t : Sample => s.timestamp.toNat < t.timestamp.toNat)
      (fun s t : Sample => s.timestamp.toNat < t.timestamp.toNat)
      (fun s t : Sample => s.timestamp.toNat < t.timestamp.toNat) := ⟨Nat.lt_trans⟩
  exact hchain.pairwise

theorem isChain_consecutive {A : Type} {R : A → A → Prop} {l : List A} (h : l.IsChain R)
    {a b : A} (hab : (a, b) ∈ consecutive l) : R a b := by
  induction l with
  | nil => cases hab
  | cons x rest ih =>
    cases rest with
    | nil => cases hab
    | cons y rest =>
      rw [List.isChain_cons_cons] at h
      rcases List.mem_cons.mp hab with heq | hmem
      · cases heq
        exact h.1
      · exact ih h.2 hmem

/-- The difference of two readings is off by 2^64 - 2^48 if the counter wrapped between
them. -/
theorem toNat_reading_sub {x y : Nat} (hle : x ≤ y) (hlt : y - x < 2 ^ 48) :
    (BitVec.ofNat 64 (y % 2 ^ 48) - BitVec.ofNat 64 (x % 2 ^ 48)).toNat =
      (y - x) + if x / 2 ^ 48 = y / 2 ^ 48 then 0 else 2 ^ 64 - 2 ^ 48 := by
  simp only [BitVec.toNat_sub, BitVec.toNat_ofNat]
  split_ifs <;> omega

theorem mem_consecutive_of_neighbours {A : Type} {time : A → Nat} {l : List A} {a b : A}
    (h : l.Pairwise fun x y => time x < time y) (ha : a ∈ l) (hb : b ∈ l) (hab : time a < time b)
    (hgap : ∀ x ∈ l, time a ≤ time x → time x ≤ time b → time x = time a ∨ time x = time b) :
    (a, b) ∈ consecutive l := by
  induction l with
  | nil => cases ha
  | cons x rest ih =>
    rw [List.pairwise_cons] at h
    rcases List.mem_cons.mp ha with rfl | harest
    · -- the element after `a` is not later than `b`
      have hbrest : b ∈ rest := by
        rcases List.mem_cons.mp hb with rfl | hbrest
        · omega
        · exact hbrest
      cases rest with
      | nil => cases hbrest
      | cons y tail =>
        have hay := h.1 y List.mem_cons_self
        rcases List.mem_cons.mp hbrest with rfl | hbtail
        · exact List.mem_cons_self
        · have hyb := (List.pairwise_cons.mp h.2).1 b hbtail
          rcases hgap y (List.mem_cons_of_mem _ List.mem_cons_self) (by omega) (by omega) with hy | hy
          · omega
          · omega
    · have hbrest : b ∈ rest := by
        rcases List.mem_cons.mp hb with rfl | hbrest
        · have := h.1 a harest
          omega
        · exact hbrest
      have hmem := ih h.2 harest hbrest fun y hy => hgap y (List.mem_cons_of_mem _ hy)
      cases rest with
      | nil => cases harest
      | cons y tail => exact List.mem_cons_of_mem _ hmem

/-- Where the differences come from: two samples of the CPU, one after the other. -/
def Between (log : List Sample) (d : DiffRow) (s t : Sample) : Prop :=
  (s, t) ∈ consecutive (ofCpu d.cpuId log) ∧ d = diffRow s.logged t.logged

theorem logDiffs_of_samples {log : List Sample} (h : Sampled log) {cpu : BitVec 32}
    {cpuId : Option (BitVec 32)} (hkept : cpuId = none ∨ cpuId = some cpu) :
    ((logDiffs cpuId (log.map Sample.logged)).filter fun row => row.cpuId == cpu) =
      (consecutive (ofCpu cpu log)).map fun p => diffRow p.1.logged p.2.logged := by
  have hpair : ((log.map Sample.logged).filter fun row => row.cpuId == cpu).Pairwise
      fun a b => a.timestamp.toNat < b.timestamp.toNat := by
    rw [filter_map_logged, List.pairwise_map]
    exact h.increasing cpu
  rw [logDiffs_of_cpu hkept hpair, filter_map_logged, consecutive, ← List.map_tail, List.zip_map,
    List.map_map]
  rfl

/-- No pair of neighbouring samples is left out. -/
theorem mem_logDiffs_of_consecutive {log : List Sample} (h : Sampled log) (cpu : BitVec 32)
    {s t : Sample} (hst : (s, t) ∈ consecutive (ofCpu cpu log)) :
    diffRow s.logged t.logged ∈ logDiffs none (log.map Sample.logged) := by
  have hmem := List.mem_map_of_mem
    (f := fun p : Sample × Sample => diffRow p.1.logged p.2.logged) hst
  rw [← logDiffs_of_samples h (Or.inl rfl)] at hmem
  exact (List.mem_filter.mp hmem).1

theorem between_of_mem_logDiffs {log : List Sample} (h : Sampled log)
    {cpuId : Option (BitVec 32)} {d : DiffRow} (hd : d ∈ logDiffs cpuId (log.map Sample.logged)) :
    ∃ s t, Between log d s t := by
  have hmem : d ∈ (logDiffs cpuId (log.map Sample.logged)).filter
      fun row => row.cpuId == d.cpuId := List.mem_filter.mpr ⟨hd, by simp⟩
  rw [logDiffs_of_samples h (cpuId_of_mem_logDiffs hd)] at hmem
  obtain ⟨⟨s, t⟩, hst, heq⟩ := List.mem_map.mp hmem
  exact ⟨s, t, hst, heq.symm⟩

theorem between_of_mem_rangeDiffs {log : List Sample} (h : Sampled log) {tMin tMax : BitVec 64}
    (hlt : tMin.toNat < tMax.toNat)
    (hpolls : ∀ s ∈ log, tMin.toNat ≤ s.timestamp.toNat → s.timestamp.toNat ≤ tMax.toNat →
      s.timestamp = tMin ∨ s.timestamp = tMax)
    {d : DiffRow} (hd : d ∈ rangeDiffs tMin tMax (log.map Sample.logged)) :
    ∃ s t, Between log d s t := by
  simp only [rangeDiffs, List.mem_flatMap, List.mem_map, List.mem_filter, beq_iff_eq] at hd
  obtain ⟨_, ⟨⟨t, ht, rfl⟩, htime⟩, _, ⟨⟨⟨s, hs, rfl⟩, hstime⟩, hcpu⟩, rfl⟩ := hd
  have htime : t.timestamp = tMax := htime
  have hstime : s.timestamp = tMin := hstime
  have hcpu : s.cpuId = t.cpuId := hcpu
  refine ⟨s, t, ?_, rfl⟩
  have hmem : ∀ u : Sample, u ∈ ofCpu t.cpuId log ↔ u ∈ log ∧ u.cpuId = t.cpuId := by
    intro u
    rw [ofCpu, List.mem_filter, beq_iff_eq]
  apply mem_consecutive_of_neighbours (h.increasing t.cpuId)
    ((hmem s).mpr ⟨hs, hcpu⟩) ((hmem t).mpr ⟨ht, rfl⟩)
  · rw [hstime, htime]
    exact hlt
  · intro u hu hlow hhigh
    rw [hstime] at hlow ⊢
    rw [htime] at hhigh ⊢
    rcases hpolls u ((hmem u).mp hu).1 hlow hhigh with heq | heq
    · exact Or.inl (by rw [heq])
    · exact Or.inr (by rw [heq])

theorem mem_rangeTimestamps (start stop t : BitVec 64) (log : List Sample) :
    t ∈ rangeTimestamps start stop (log.map Sample.logged) ↔
      (∃ s ∈ log, s.timestamp = t) ∧ start.toNat ≤ t.toNat ∧ t.toNat ≤ stop.toNat := by
  simp only [rangeTimestamps, List.mem_dedup, List.mem_filter, List.map_map, List.mem_map,
    Bool.and_eq_true, decide_eq_true_eq]
  rfl

/-- The two polls of a range have no other poll between them. -/
theorem between_of_two_timestamps {log : List Sample} (h : Sampled log)
    {start stop t u : BitVec 64}
    (htimes : ∀ v, v ∈ rangeTimestamps start stop (log.map Sample.logged) ↔ v = t ∨ v = u)
    (hlt : t.toNat < u.toNat) {d : DiffRow}
    (hd : d ∈ rangeDiffs t u (log.map Sample.logged)) : ∃ s s', Between log d s s' := by
  have ht := (mem_rangeTimestamps start stop t log).mp ((htimes t).mpr (Or.inl rfl))
  have hu := (mem_rangeTimestamps start stop u log).mp ((htimes u).mpr (Or.inr rfl))
  apply between_of_mem_rangeDiffs h hlt _ hd
  intro s hs hlow hhigh
  apply (htimes s.timestamp).mp
  exact (mem_rangeTimestamps start stop s.timestamp log).mpr ⟨⟨s, hs, rfl⟩, by omega, by omega⟩

theorem between_of_mem_calcDataInRange {log : List Sample} (h : Sampled log)
    {start stop : BitVec 64} {cpuId : Option (BitVec 32)} {diffs : List DiffRow} {d : DiffRow}
    (hcalc : calcDataInRange start stop cpuId (log.map Sample.logged) = some diffs)
    (hd : d ∈ diffs) : ∃ s t, Between log d s t := by
  unfold calcDataInRange at hcalc
  split at hcalc
  · rename_i t u htimes
    have hne : t ≠ u := by
      have hnodup : (rangeTimestamps start stop (log.map Sample.logged)).Nodup :=
        List.nodup_dedup _
      rw [htimes] at hnodup
      simpa using hnodup
    have hnat : t.toNat ≠ u.toNat := fun heq => hne (BitVec.eq_of_toNat_eq heq)
    have hmem : d ∈ if t.toNat ≤ u.toNat then rangeDiffs t u (log.map Sample.logged)
        else rangeDiffs u t (log.map Sample.logged) := by
      rw [Option.some.injEq] at hcalc
      subst hcalc
      cases cpuId with
      | none => exact hd
      | some cpu => exact (List.mem_filter.mp hd).1
    split_ifs at hmem with hle
    · exact between_of_two_timestamps h (fun v => by rw [htimes]; simp) (by omega) hmem
    · exact between_of_two_timestamps h (fun v => by rw [htimes]; simp [or_comm]) (by omega) hmem
  · cases hcalc

/-- Every difference is the true increase between two samples, and 2^64 - 2^48 more if the
counter wrapped between them. -/
theorem diff_eq_increase_unless_wrapped {log : List Sample} (h : Sampled log)
    {cpuId : Option (BitVec 32)} {d : DiffRow}
    (hd : d ∈ logDiffs cpuId (log.map Sample.logged) ∨
      ∃ start stop diffs, calcDataInRange start stop cpuId (log.map Sample.logged) = some diffs ∧
        d ∈ diffs) :
    ∃ s t, Between log d s t ∧ ∀ c, (d.diff c).toNat = (t.count c - s.count c) +
      if s.count c / 2 ^ 48 = t.count c / 2 ^ 48 then 0 else 2 ^ 64 - 2 ^ 48 := by
  have hbetween : ∃ s t, Between log d s t := by
    rcases hd with hd | ⟨start, stop, diffs, hcalc, hd⟩
    · exact between_of_mem_logDiffs h hd
    · exact between_of_mem_calcDataInRange h hcalc hd
  obtain ⟨s, t, hconsecutive, rfl⟩ := hbetween
  refine ⟨s, t, ⟨hconsecutive, rfl⟩, ?_⟩
  intro c
  obtain ⟨-, hcount⟩ := isChain_consecutive (h _) hconsecutive
  exact toNat_reading_sub (hcount c).1 (hcount c).2

theorem sampled_pair {cpu : BitVec 32} {t u : BitVec 64} {f g : Counter → Nat}
    (htime : t.toNat < u.toNat) (hcount : ∀ c, f c ≤ g c ∧ g c - f c < 2 ^ 48) :
    Sampled [⟨cpu, t, f⟩, ⟨cpu, u, g⟩] := by
  intro cpu'
  by_cases hcpu : cpu = cpu'
  · subst hcpu
    have hboth : ofCpu cpu [⟨cpu, t, f⟩, ⟨cpu, u, g⟩] = [⟨cpu, t, f⟩, ⟨cpu, u, g⟩] := by
      simp [ofCpu]
    rw [hboth]
    exact .cons_cons ⟨htime, hcount⟩ (.singleton _)
  · have hnone : ofCpu cpu' [⟨cpu, t, f⟩, ⟨cpu, u, g⟩] = [] := by simp [ofCpu, hcpu]
    rw [hnone]
    exact .nil

/-- An increase by 7 events, read back by the decoder. -/
theorem diff_eq_increase_seven : ∃ d s t,
    d ∈ logDiffs none ([⟨0, 1, fun _ => 5⟩, ⟨0, 2, fun _ => 12⟩].map Sample.logged) ∧
    Between [⟨0, 1, fun _ => 5⟩, ⟨0, 2, fun _ => 12⟩] d s t ∧
    ∀ c, (d.diff c).toNat = (t.count c - s.count c) +
      if s.count c / 2 ^ 48 = t.count c / 2 ^ 48 then 0 else 2 ^ 64 - 2 ^ 48 := by
  have hsampled : Sampled [⟨0, 1, fun _ => 5⟩, ⟨0, 2, fun _ => 12⟩] :=
    sampled_pair (by decide) fun _ => by omega
  have hd := mem_logDiffs_of_consecutive hsampled 0 List.mem_cons_self
  obtain ⟨s, t, hbetween, hdiff⟩ := diff_eq_increase_unless_wrapped hsampled (Or.inl hd)
  exact ⟨_, s, t, hd, hbetween, hdiff⟩

/-- Two samples of CPU 0 between which every counter reaches 2^48. -/
def wrappedLog : List Sample := [⟨0, 1, fun _ => 2 ^ 48 - 1⟩, ⟨0, 2, fun _ => 2 ^ 48⟩]

theorem sampled_wrappedLog : Sampled wrappedLog :=
  sampled_pair (by decide) fun _ => by omega

/-- Both programs report 2^64 - 2^48 + 1 events where there was one. -/
theorem wrapped_diff_is_wrong : Sampled wrappedLog ∧ ∃ d s t, Between wrappedLog d s t ∧
    d ∈ logDiffs none (wrappedLog.map Sample.logged) ∧
    calcDataInRange 1 2 none (wrappedLog.map Sample.logged) = some [d] ∧
    t.count .llcMisses - s.count .llcMisses = 1 ∧
    (d.diff .llcMisses).toNat = 2 ^ 64 - 2 ^ 48 + 1 := by
  refine ⟨sampled_wrappedLog, diffRow (Sample.logged ⟨0, 1, fun _ => 2 ^ 48 - 1⟩)
    (Sample.logged ⟨0, 2, fun _ => 2 ^ 48⟩), ⟨0, 1, fun _ => 2 ^ 48 - 1⟩, ⟨0, 2, fun _ => 2 ^ 48⟩,
    ⟨List.mem_cons_self, rfl⟩, ?_, by rfl, by decide, by decide⟩
  exact mem_logDiffs_of_consecutive sampled_wrappedLog 0 List.mem_cons_self

end LogParsing
