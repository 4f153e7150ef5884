import LawProof.Census.Report

/-!
# The books of a census

A report is kept entry by entry. Each proof goes into one bin of the histogram of lengths, and each
of its steps into one bin of the histograms of laws and of positions. The longest proof so far is
looked up among the entries before the new one joins them. So after any number of entries, with or
without a proof, the bins, the totals, the rankings, the longest proof and the holdouts are those of
the list of all entries.
-/

namespace LawProof

namespace Histogram

/-! ## Bins -/

theorem bin_new (bins i : Nat) : (new bins).bin i = [] := by
  unfold new bin
  rw [List.getD_eq_getElem?_getD, List.getElem?_replicate]
  split <;> rfl

theorem total_new (bins : Nat) : (new bins).total = 0 := by
  unfold new total
  rw [sumOf_replicate]
  rfl

theorem bin_grow (h : Histogram) (i j : Nat) : (h.grow i).bin j = h.bin j := by
  unfold grow bin
  simp only [List.getD_eq_getElem?_getD, List.getElem?_append, List.getElem?_replicate]
  split
  · rfl
  · rename_i hj
    rw [List.getElem?_eq_none (by omega : h.bins.length ≤ j)]
    split <;> rfl

theorem lt_length_grow (h : Histogram) (i : Nat) : i < (h.grow i).bins.length := by
  unfold grow
  rw [List.length_append, List.length_replicate]
  omega

theorem bin_add (h : Histogram) (i index j : Nat) :
    (h.add i index).bin j = h.bin j ++ if j = i then [index] else [] := by
  rw [← h.bin_grow i j]
  have hlt := h.lt_length_grow i
  unfold add bin
  simp only [List.getD_eq_getElem?_getD, List.getElem?_modify]
  by_cases hj : j = i
  · subst hj
    simp [List.getElem?_eq_getElem hlt]
  · simp [hj, Ne.symm hj]

theorem total_add (h : Histogram) (i index : Nat) : (h.add i index).total = h.total + 1 := by
  have hgrow : (h.grow i).total = h.total := by
    unfold grow total
    rw [sumOf_append, sumOf_replicate]
    rfl
  have hlt := h.lt_length_grow i
  have hget := List.getElem?_eq_getElem hlt
  have hset := sumOf_set List.length ((h.grow i).bins[i] ++ [index]) hget
  rw [← hgrow]
  show sumOf List.length ((h.grow i).bins.modify i (· ++ [index])) =
    sumOf List.length (h.grow i).bins + 1
  rw [List.modify_eq_set, hget, Option.getD_some]
  rw [List.length_append, List.length_singleton] at hset
  omega

/-- Puts an index into several bins, and into some of them perhaps more than once. -/
def addAll (h : Histogram) (bins : List Nat) (index : Nat) : Histogram :=
  bins.foldl (fun h i => h.add i index) h

theorem bin_addAll (h : Histogram) (bins : List Nat) (index j : Nat) :
    (h.addAll bins index).bin j = h.bin j ++ List.replicate (bins.count j) index := by
  unfold addAll
  induction bins generalizing h with
  | nil => simp
  | cons i bins ih =>
    rw [List.foldl_cons, ih, bin_add, List.append_assoc]
    by_cases hj : j = i
    · subst hj
      rw [if_pos rfl, List.count_cons_self, List.replicate_succ, List.singleton_append]
    · rw [if_neg hj, List.count_cons_of_ne (Ne.symm hj), List.nil_append]

theorem total_addAll (h : Histogram) (bins : List Nat) (index : Nat) :
    (h.addAll bins index).total = h.total + bins.length := by
  unfold addAll
  induction bins generalizing h with
  | nil => rfl
  | cons i bins ih =>
    rw [List.foldl_cons, ih, total_add, List.length_cons]
    omega

/-- `h.Lists marks`: the bins list in order the indices of `marks`, each as often as the bin is
named there. -/
structure Lists (h : Histogram) (marks : List (List Nat)) : Prop where
  ascends : ∀ j, (h.bin j).Pairwise (· ≤ ·)
  count : ∀ j i, (h.bin j).count i = (marks.getD i []).count j
  total : h.total = sumOf List.length marks

theorem lists_new (bins : Nat) : (new bins).Lists [] := by
  refine ⟨fun j => ?_, fun j i => ?_, total_new bins⟩
  · rw [bin_new]
    exact .nil
  · rw [bin_new]
    rfl

theorem Lists.lt {h : Histogram} {marks : List (List Nat)} (hl : h.Lists marks) {i j : Nat}
    (hi : i ∈ h.bin j) : i < marks.length := by
  have hpos := List.count_pos_iff.mpr hi
  rw [hl.count] at hpos
  apply Nat.lt_of_not_le
  intro hle
  rw [List.getD_eq_getElem?_getD, List.getElem?_eq_none hle] at hpos
  simp at hpos

theorem Lists.addAll {h : Histogram} {marks : List (List Nat)} (hl : h.Lists marks)
    (bins : List Nat) : (h.addAll bins marks.length).Lists (marks ++ [bins]) := by
  refine ⟨fun j => ?_, fun j i => ?_, ?_⟩
  · rw [bin_addAll, List.pairwise_append]
    refine ⟨hl.ascends j, List.pairwise_replicate.mpr (Or.inr (Nat.le_refl _)), ?_⟩
    intro i hi k hk
    rw [List.eq_of_mem_replicate hk]
    exact Nat.le_of_lt (hl.lt hi)
  · rw [bin_addAll, List.count_append, hl.count, List.getD_eq_getElem?_getD,
      List.getD_eq_getElem?_getD, List.getElem?_append]
    by_cases hi : i < marks.length
    · rw [if_pos hi, List.count_replicate]
      simp [Nat.ne_of_gt hi]
    · rw [if_neg hi, List.getElem?_eq_none (by omega : marks.length ≤ i), List.count_replicate]
      by_cases heq : i = marks.length
      · subst heq
        simp
      · have hbeyond : [bins].length ≤ i - marks.length := by
          rw [List.length_singleton]
          omega
        simp [Ne.symm heq, List.getElem?_eq_none hbeyond]
  · rw [total_addAll, hl.total, sumOf_append]
    rfl

/-! ## Rankings -/

/-- `h.Ranks l`: the list has every bin that is not empty once, the fullest first, and among equally
full ones the lowest first. -/
structure Ranks (h : Histogram) (l : List Nat) : Prop where
  nodup : l.Nodup
  mem : ∀ i, i ∈ l ↔ h.bin i ≠ []
  ordered : l.Pairwise fun i j =>
    h.frequency j < h.frequency i ∨ h.frequency i = h.frequency j ∧ i < j

theorem ranks_ranking (h : Histogram) : h.Ranks h.ranking := by
  unfold ranking
  generalize hfull : (List.range h.bins.length).filter (fun i => decide (0 < h.frequency i)) = full
  have hascends : full.Pairwise (· < ·) := hfull ▸ List.pairwise_lt_range.filter _
  have htrans : ∀ a b c : Nat, decide (h.frequency b ≤ h.frequency a) = true →
      decide (h.frequency c ≤ h.frequency b) = true →
      decide (h.frequency c ≤ h.frequency a) = true := by
    simp only [decide_eq_true_eq]
    omega
  have htotal : ∀ a b : Nat, (decide (h.frequency b ≤ h.frequency a) ||
      decide (h.frequency a ≤ h.frequency b)) = true := by
    simp only [Bool.or_eq_true, decide_eq_true_eq]
    omega
  have hperm := List.mergeSort_perm full fun i j => decide (h.frequency j ≤ h.frequency i)
  have hsorted := List.pairwise_mergeSort htrans htotal full
  have hstable := @List.sublist_mergeSort _ _ full htrans htotal
  generalize full.mergeSort (fun i j => decide (h.frequency j ≤ h.frequency i)) = l
    at hperm hsorted hstable
  -- Sorting is stable: bins that are equally full stay in the order in which they were.
  have hclass : ∀ n, l.filter (h.frequency · = n) = full.filter (h.frequency · = n) := by
    intro n
    have hequal : (full.filter (h.frequency · = n)).Pairwise
        fun i j => decide (h.frequency j ≤ h.frequency i) = true := by
      apply List.pairwise_of_forall_mem_list
      simp only [List.mem_filter, decide_eq_true_eq]
      omega
    have hsub := (hstable hequal List.filter_sublist).filter (h.frequency · = n)
    rw [List.filter_filter] at hsub
    simp only [Bool.and_self] at hsub
    exact (hsub.eq_of_length (hperm.filter _).length_eq.symm).symm
  refine ⟨hperm.nodup_iff.mpr (hascends.imp Nat.ne_of_lt), fun i => ?_, ?_⟩
  · rw [hperm.mem_iff, ← hfull, List.mem_filter, List.mem_range, decide_eq_true_eq,
      ← List.length_pos_iff]
    refine ⟨fun hi => hi.2, fun hi => ⟨?_, hi⟩⟩
    apply Nat.lt_of_not_le
    intro hle
    unfold bin at hi
    rw [List.getD_eq_getElem?_getD, List.getElem?_eq_none hle] at hi
    simp at hi
  · rw [List.pairwise_iff_forall_sublist] at hsorted ⊢
    intro i j hij
    have hle := of_decide_eq_true (hsorted hij)
    rcases Nat.lt_or_eq_of_le hle with hlt | heq
    · exact Or.inl hlt
    · have hpair := hij.filter (h.frequency · = h.frequency i)
      rw [hclass] at hpair
      simp only [List.filter_cons, heq, decide_true, if_true, List.filter_nil] at hpair
      have hlt := List.pairwise_iff_forall_sublist.mp (hascends.filter _) hpair
      exact Or.inr ⟨heq.symm, hlt⟩

end Histogram

/-! ## Reports -/

/-- The steps of the proof that was found, none if there was no proof. -/
def Outcome.steps (o : Outcome) : Proof := o.proof?.getD []

namespace Report

/-- Adds formulas that match the goal one after another. -/
def recordAll (r : Report) (records : List (Formula × Outcome)) : Report :=
  records.foldl (fun r (f, o) => r.record f o) r

/-- `IsLongest proofs place n`: the first of the longest proofs stands at this place and has `n`
steps. There is no place if no proof has a step. -/
def IsLongest (proofs : List (Option Proof)) : Option Nat → Nat → Prop
  | none, n => n = 0 ∧ ∀ q, some q ∈ proofs → q = []
  | some i, n => 0 < n ∧ (∃ p, proofs[i]? = some (some p) ∧ p.length = n) ∧
      ∀ j q, proofs[j]? = some (some q) → q.length ≤ n ∧ (j < i → q.length < n)

theorem IsLongest.le {proofs : List (Option Proof)} {place : Option Nat} {n : Nat}
    (h : IsLongest proofs place n) {q : Proof} (hq : some q ∈ proofs) : q.length ≤ n := by
  cases place with
  | none =>
    rw [h.2 q hq]
    exact Nat.zero_le n
  | some i =>
    obtain ⟨j, hj⟩ := List.getElem?_of_mem hq
    exact (h.2.2 j q hj).1

theorem IsLongest.append {proofs : List (Option Proof)} {place : Option Nat} {n : Nat}
    (h : IsLongest proofs place n) (next : Option Proof) :
    IsLongest (proofs ++ [next])
      (if n < (next.getD []).length then some proofs.length else place)
      (max n (next.getD []).length) := by
  have hnext : ∀ j q, (proofs ++ [next])[j]? = some (some q) →
      proofs[j]? = some (some q) ∨ j = proofs.length ∧ next = some q := by
    intro j q hq
    rw [List.getElem?_append] at hq
    split at hq
    · exact Or.inl hq
    · rename_i hj
      obtain ⟨hlt, heq⟩ := List.getElem?_eq_some_iff.mp hq
      rw [List.length_singleton] at hlt
      exact Or.inr ⟨by omega, by simpa using heq⟩
  by_cases hlt : n < (next.getD []).length
  · rw [if_pos hlt, Nat.max_eq_right (Nat.le_of_lt hlt)]
    refine ⟨by omega, ?_, ?_⟩
    · cases next with
      | none => simp at hlt
      | some p => exact ⟨p, by simp, rfl⟩
    · intro j q hq
      rcases hnext j q hq with hq | ⟨rfl, rfl⟩
      · have := h.le (List.mem_of_getElem? hq)
        omega
      · exact ⟨Nat.le_refl _, fun hj => absurd hj (Nat.lt_irrefl _)⟩
  · rw [if_neg hlt, Nat.max_eq_left (Nat.le_of_not_lt hlt)]
    cases place with
    | none =>
      refine ⟨h.1, fun q hq => ?_⟩
      obtain ⟨j, hj⟩ := List.getElem?_of_mem hq
      rcases hnext j q hj with hq | ⟨-, rfl⟩
      · exact h.2 q (List.mem_of_getElem? hq)
      · have hzero := h.1
        rw [Option.getD_some] at hlt
        exact List.length_eq_zero_iff.mp (by omega)
    | some i =>
      obtain ⟨hpos, ⟨p, hp, hlength⟩, hmost⟩ := h
      have hi := (List.getElem?_eq_some_iff.mp hp).1
      refine ⟨hpos, ⟨p, ?_, hlength⟩, fun j q hq => ?_⟩
      · rw [List.getElem?_append_left hi, hp]
      · rcases hnext j q hq with hq | ⟨rfl, rfl⟩
        · exact hmost j q hq
        · rw [Option.getD_some] at hlt
          exact ⟨by omega, by omega⟩

/-- What a report says after these records. -/
structure Keeps (r : Report) (records : List (Formula × Outcome)) : Prop where
  entries : r.entries = records.map fun (f, o) => ⟨f, o.proof?⟩
  lengths : r.lengths.Lists (records.map fun (_, o) => (o.proof?.map List.length).toList)
  laws : r.laws.Lists (records.map fun (_, o) => o.steps.map (·.law.index))
  positions : r.positions.Lists (records.map fun (_, o) => o.steps.map (·.position))
  longest : ∃ n, IsLongest (records.map (·.2.proof?)) r.longest? n

theorem keeps_new (symbols : Nat) (goal : Goal) (maxLength positions : Nat) :
    (new symbols goal maxLength positions).Keeps [] := by
  have hnew : ∀ bins, (Histogram.new bins).Lists [] := Histogram.lists_new
  exact ⟨rfl, hnew _, hnew _, hnew _, 0, rfl, by simp⟩

section

variable {r : Report} {records : List (Formula × Outcome)}

theorem Keeps.isLongest (h : r.Keeps records) :
    IsLongest (records.map (·.2.proof?)) r.longest? r.maxProofLength := by
  obtain ⟨n, hn⟩ := h.longest
  suffices r.maxProofLength = n by
    rw [this]
    exact hn
  unfold maxProofLength longestProof? longestEntry?
  cases hplace : r.longest? with
  | none =>
    rw [hplace] at hn
    exact hn.1.symm
  | some i =>
    rw [hplace] at hn
    obtain ⟨-, ⟨p, hp, hlength⟩, -⟩ := hn
    rw [List.getElem?_map, Option.map_eq_some_iff] at hp
    obtain ⟨⟨f, o⟩, hrecord, hproof⟩ := hp
    have hentry : r.entries[i]? = some ⟨f, some p⟩ := by
      rw [h.entries, List.getElem?_map, hrecord, Option.map_some, ← hproof]
    simp only [Option.bind_some, hentry, Option.map_some, Option.getD_some]
    exact hlength

variable (r) (f : Formula) (o : Outcome)

theorem lengths_record : (r.record f o).lengths =
    r.lengths.addAll (o.proof?.map List.length).toList r.entries.length := by
  unfold record
  cases o.proof? <;> rfl

theorem laws_record : (r.record f o).laws =
    r.laws.addAll (o.steps.map (·.law.index)) r.entries.length := by
  unfold record Outcome.steps Histogram.addAll
  rw [List.foldl_map]
  cases o.proof? <;> rfl

theorem positions_record : (r.record f o).positions =
    r.positions.addAll (o.steps.map (·.position)) r.entries.length := by
  unfold record Outcome.steps Histogram.addAll
  rw [List.foldl_map]
  cases o.proof? <;> rfl

theorem longest?_record : (r.record f o).longest? =
    if r.maxProofLength < o.steps.length then some r.entries.length else r.longest? := by
  unfold record Outcome.steps
  cases o.proof? <;> rfl

variable {r}

theorem Keeps.record (h : r.Keeps records) : (r.record f o).Keeps (records ++ [(f, o)]) := by
  have hlength : r.entries.length = records.length := by rw [h.entries, List.length_map]
  -- In each of the three lists of marks the new one stands behind those that were there.
  have hmark : ∀ {α : Type} (mark : Formula × Outcome → α),
      (records ++ [(f, o)]).map mark = records.map mark ++ [mark (f, o)] := by simp
  have hindex : ∀ {α : Type} (mark : Formula × Outcome → α),
      r.entries.length = (records.map mark).length := by simp [hlength]
  refine ⟨?_, ?_, ?_, ?_, max r.maxProofLength o.steps.length, ?_⟩
  · show r.entries ++ _ = _
    rw [h.entries, hmark]
  · rw [lengths_record, hmark, hindex]
    exact h.lengths.addAll _
  · rw [laws_record, hmark, hindex]
    exact h.laws.addAll _
  · rw [positions_record, hmark, hindex]
    exact h.positions.addAll _
  · rw [longest?_record, hmark, hindex]
    exact h.isLongest.append o.proof?

theorem Keeps.recordAll (h : r.Keeps records) (more : List (Formula × Outcome)) :
    (r.recordAll more).Keeps (records ++ more) := by
  induction more generalizing r records with
  | nil =>
    rw [List.append_nil]
    exact h
  | cons next more ih =>
    have := ih (h.record next.1 next.2)
    rwa [List.append_assoc] at this

end

/-! ## The books -/

variable {records : List (Formula × Outcome)} {h : Histogram}

theorem mem_bin_iff_of_lists
    (hl : h.Lists (records.map fun (_, o) => (o.proof?.map List.length).toList)) (n i : Nat) :
    i ∈ h.bin n ↔ ∃ f p, records[i]? = some (f, .proved p) ∧ p.length = n := by
  rw [← List.count_pos_iff, hl.count, List.count_pos_iff, List.getD_eq_getElem?_getD,
    List.getElem?_map]
  cases records[i]? with
  | none => simp
  | some record =>
    obtain ⟨f, o⟩ := record
    cases o with
    | proved p =>
      simp only [Option.map_some, Option.getD_some, Outcome.proof?, Option.toList_some,
        List.mem_singleton]
      constructor
      · intro hn
        exact ⟨f, p, rfl, hn.symm⟩
      · rintro ⟨_, _, ⟨⟩, hn⟩
        exact hn.symm
    | notFound | timedOut => simp [Outcome.proof?]

theorem pairwise_lt_bin_of_lists
    (hl : h.Lists (records.map fun (_, o) => (o.proof?.map List.length).toList)) (n : Nat) :
    (h.bin n).Pairwise (· < ·) := by
  have hnodup : (h.bin n).Nodup := by
    rw [List.nodup_iff_count]
    intro i
    rw [hl.count, List.getD_eq_getElem?_getD, List.getElem?_map]
    apply Nat.le_trans List.count_le_length
    cases records[i]? with
    | none => simp
    | some record => cases hproof : record.2.proof? <;> simp [hproof]
  exact (hl.ascends n).imp₂ (fun _ _ hle hne => Nat.lt_of_le_of_ne hle hne) hnodup

theorem total_of_lists {key : Step → Nat}
    (hl : h.Lists (records.map fun (_, o) => o.steps.map key)) :
    h.total = sumOf (fun (_, o) => o.steps.length) records := by
  rw [hl.total, sumOf_map]
  exact sumOf_congr fun record _ => List.length_map ..

/-- Whatever is recorded in a new report, its entries, bins, longest proof, holdouts and rankings
are those of the records. -/
theorem books_of_recordAll (symbols : Nat) (goal : Goal) (maxLength positions : Nat)
    (records : List (Formula × Outcome)) :
    let r := (new symbols goal maxLength positions).recordAll records
    r.entries = records.map (fun (f, o) => ⟨f, o.proof?⟩) ∧
      (∀ n, (r.lengths.bin n).Pairwise (· < ·) ∧ ∀ i, i ∈ r.lengths.bin n ↔
        ∃ f p, records[i]? = some (f, .proved p) ∧ p.length = n) ∧
      r.laws.Lists (records.map fun (_, o) => o.steps.map (·.law.index)) ∧
      r.positions.Lists (records.map fun (_, o) => o.steps.map (·.position)) ∧
      r.laws.total = sumOf (fun (_, o) => o.steps.length) records ∧
      r.positions.total = sumOf (fun (_, o) => o.steps.length) records ∧
      IsLongest (records.map (·.2.proof?)) r.longest? r.maxProofLength ∧
      r.holdouts = (records.filter (·.2.proof?.isNone)).map (·.1) ∧
      ∀ h ∈ [r.lengths, r.laws, r.positions], h.Ranks h.ranking := by
  intro r
  have hr : r.Keeps records := (keeps_new symbols goal maxLength positions).recordAll records
  have hholdouts : r.holdouts = (records.filter (·.2.proof?.isNone)).map (·.1) := by
    unfold holdouts
    rw [hr.entries, List.filter_map, List.map_map]
    rfl
  exact ⟨hr.entries, fun n => ⟨pairwise_lt_bin_of_lists hr.lengths n,
    mem_bin_iff_of_lists hr.lengths n⟩, hr.laws, hr.positions, total_of_lists hr.laws,
    total_of_lists hr.positions, hr.isLongest, hholdouts, fun h _ => h.ranks_ranking⟩

end Report

end LawProof
