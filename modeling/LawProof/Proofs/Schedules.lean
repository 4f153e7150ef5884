import LawProof.Proofs.Workers
import LawProof.Search.Parallel

/-!
# Pools under every schedule

A pool goes through any interleaving of what its workers do, of the messages that the coordinator
receives and, if there is a deadline, of a stop. Nothing that is on record in a pool is ever false,
and no chunk is lost. So when all workers have reported, the endings decide as one scan of all
candidates does, or the search was stopped.
-/

namespace LawProof

namespace Pool

/-! ## Interleavings -/

/-- What can come of a pool: any worker does its next thing, any oldest message of a worker is
received, and a pool with a deadline can be stopped, all at any time. -/
inductive Reaches (job : Job) (timed : Bool) (p : Pool) : Pool → Prop where
  | refl : Reaches job timed p p
  | step {q r : Pool} {e : Event} : Reaches job timed p q → (e = .signal → timed = true) →
      q.move job e = some r → Reaches job timed p r

/-- The coordinator has heard from all workers that they are finished. -/
def Complete (p : Pool) : Prop := p.finished = p.workers.length

theorem move_work {job : Job} {p q : Pool} {id : Nat} (h : p.move job (.work id) = some q) :
    ∃ w v queue shared, p.workers[id]? = some w ∧ w.Moves job p.shared v p.queue queue shared ∧
      q = { p with queue, shared, workers := p.workers.set id v } := by
  simp only [move] at h
  split at h
  · simp at h
  · rename_i w hw
    split at h
    · simp at h
    · rename_i queue shared v hv
      rw [Option.some.injEq] at h
      exact ⟨w, v, queue, shared, hw, Worker.move_eq_some hv, h.symm⟩

theorem move_receive {job : Job} {p q : Pool} {id : Nat} (h : p.move job (.receive id) = some q) :
    ∃ w m rest, p.workers[id]? = some w ∧ w.outbox = m :: rest ∧
      q = accept { p with workers := p.workers.set id { w with outbox := rest } } id m := by
  simp only [move] at h
  split at h
  · simp at h
  · rename_i w hw
    split at h
    · simp at h
    · rename_i m rest hm
      rw [Option.some.injEq] at h
      exact ⟨w, m, rest, hw, hm, h.symm⟩

theorem move_signal {job : Job} {p q : Pool} (h : p.move job .signal = some q) :
    q = { p with shared := p.shared.stop } := by
  simp only [move] at h
  split at h
  · simp at h
  · rw [Option.some.injEq] at h
    exact h.symm

/-! ## Nothing false -/

/-- All that is on record in a pool is so. -/
structure IsTrue (job : Job) (timed : Bool) (p : Pool) : Prop where
  marks : p.shared.IsTrue job
  stopped : p.shared.stopped = true → timed = true
  queue : ∀ chunk ∈ p.queue, chunk < noChunk
  workers : ∀ w ∈ p.workers, w.IsTrue job p.shared
  endings : ∀ (chunk : Nat) (ending : ChunkEnd), p.endings[chunk]? = some (some ending) →
    ending.IsTrue job p.shared chunk

variable {job : Job} {timed : Bool} {p q : Pool}

theorem IsTrue.work {id : Nat} (h : p.IsTrue job timed) (hm : p.move job (.work id) = some q) :
    q.IsTrue job timed := by
  obtain ⟨w, v, queue, shared, hw, hmoves, rfl⟩ := move_work hm
  have hwtrue := h.workers w (List.mem_of_getElem? hw)
  refine ⟨hmoves.marks_isTrue h.marks hwtrue, fun hs => h.stopped (hmoves.stopped_eq ▸ hs),
    fun chunk hc => h.queue chunk (hmoves.rest_subset hc), ?_,
    fun chunk ending he => (h.endings chunk ending he).later hmoves.later⟩
  intro u hu
  rcases List.mem_or_eq_of_mem_set hu with hu | rfl
  · exact (h.workers u hu).later hmoves.later
  · exact hmoves.isTrue h.marks h.queue hwtrue

theorem IsTrue.receive {id : Nat} (h : p.IsTrue job timed)
    (hm : p.move job (.receive id) = some q) : q.IsTrue job timed := by
  obtain ⟨w, m, rest, hw, hout, rfl⟩ := move_receive hm
  have hwtrue := h.workers w (List.mem_of_getElem? hw)
  have hworkers : ∀ u ∈ p.workers.set id { w with outbox := rest }, u.IsTrue job p.shared := by
    intro u hu
    rcases List.mem_or_eq_of_mem_set hu with hu | rfl
    · exact h.workers u hu
    · refine ⟨hwtrue.phase, fun chunk ending hm => hwtrue.sent chunk ending ?_⟩
      rw [hout]
      exact List.mem_cons_of_mem _ hm
  cases m with
  | finished s => exact ⟨h.marks, h.stopped, h.queue, hworkers, h.endings⟩
  | chunkDone chunk ending =>
    refine ⟨h.marks, h.stopped, h.queue, hworkers, ?_⟩
    intro c e he
    change (p.endings.set chunk (some ending))[c]? = _ at he
    rw [List.getElem?_set] at he
    split at he
    · rename_i hc
      split at he
      · rw [Option.some.injEq, Option.some.injEq] at he
        subst hc he
        apply hwtrue.sent
        rw [hout]
        exact List.mem_cons_self
      · simp at he
    · exact h.endings c e he

theorem IsTrue.signal (h : p.IsTrue job timed) (htimed : timed = true)
    (hm : p.move job .signal = some q) : q.IsTrue job timed := by
  obtain rfl := move_signal hm
  have hlater : p.shared.Later p.shared.stop := ⟨Nat.le_refl _, fun _ => rfl⟩
  exact ⟨h.marks, fun _ => htimed, h.queue, fun w hw => (h.workers w hw).later hlater,
    fun chunk ending he => (h.endings chunk ending he).later hlater⟩

theorem IsTrue.reaches (h : p.IsTrue job timed) (hr : Reaches job timed p q) :
    q.IsTrue job timed := by
  induction hr with
  | refl => exact h
  | @step q r e _ htimed hm ih =>
    cases e with
    | work id => exact ih.work hm
    | receive id => exact ih.receive hm
    | signal => exact ih.signal (htimed rfl) hm

/-! ## Nothing lost -/

/-- One of the workers has the chunk. -/
def Held (workers : List Worker) (chunk : Nat) : Prop :=
  ∃ (id : Nat) (w : Worker), workers[id]? = some w ∧ w.Holds chunk

/-- Every chunk is somewhere on its way from the queue to the endings, and every worker has yet to
report the end of its work or has done so. -/
structure IsWhole (chunks : Nat) (p : Pool) : Prop where
  length : p.endings.length = chunks
  manned : 0 < p.workers.length
  placed : ∀ chunk, chunk < chunks → chunk ∈ p.queue ∨ Held p.workers chunk ∨
    ∃ ending, p.endings[chunk]? = some (some ending)
  emptied : ∀ w ∈ p.workers, w.phase = .done → p.queue = []
  closed : ∀ w ∈ p.workers, w.ClosesLast
  owed : p.finished + sumOf Worker.owed p.workers = p.workers.length

section

variable {workers : List Worker} {id : Nat} {w : Worker} (hw : workers[id]? = some w) (v : Worker)
include hw

theorem held_set_self {chunk : Nat} (h : v.Holds chunk) : Held (workers.set id v) chunk :=
  ⟨id, v, List.getElem?_set_self (List.getElem?_eq_some_iff.mp hw).1, h⟩

theorem held_set {chunk : Nat} {C : Prop} (hv : w.Holds chunk → v.Holds chunk ∨ C)
    (h : Held workers chunk) : Held (workers.set id v) chunk ∨ C := by
  obtain ⟨k, u, hu, hholds⟩ := h
  by_cases hk : id = k
  · subst hk
    rw [hw, Option.some.injEq] at hu
    subst hu
    rcases hv hholds with hv | hC
    · exact Or.inl (held_set_self hw v hv)
    · exact Or.inr hC
  · exact Or.inl ⟨k, u, (List.getElem?_set_ne hk).trans hu, hholds⟩

end

variable {chunks : Nat}

theorem IsWhole.work {id : Nat} (h : p.IsWhole chunks) (hm : p.move job (.work id) = some q) :
    q.IsWhole chunks := by
  obtain ⟨w, v, queue, shared, hw, hmoves, rfl⟩ := move_work hm
  refine ⟨h.length, ?_, ?_, ?_, ?_, ?_⟩
  · show 0 < (p.workers.set id v).length
    rw [List.length_set]
    exact h.manned
  · intro chunk hchunk
    rcases h.placed chunk hchunk with hq | hheld | he
    · rcases hmoves.mem_rest_or_holds hq with hrest | hholds
      · exact Or.inl hrest
      · exact Or.inr (Or.inl (held_set_self hw v hholds))
    · have hkept := held_set (C := False) hw v (fun hholds => Or.inl (hmoves.holds hholds)) hheld
      exact Or.inr (Or.inl (hkept.resolve_right not_false))
    · exact Or.inr (Or.inr he)
  · intro u hu hdone
    rcases List.mem_or_eq_of_mem_set hu with hu | rfl
    · have hnil := hmoves.rest_subset
      rw [h.emptied u hu hdone] at hnil
      exact List.subset_nil.mp hnil
    · exact (hmoves.done hdone).1
  · intro u hu
    rcases List.mem_or_eq_of_mem_set hu with hu | rfl
    · exact h.closed u hu
    · exact fun hdone => Or.inr (hmoves.done hdone).2
  · have hsum := sumOf_set Worker.owed v hw
    have := h.owed
    rw [hmoves.owed_eq] at hsum
    show p.finished + sumOf Worker.owed (p.workers.set id v) = (p.workers.set id v).length
    rw [List.length_set]
    omega

theorem IsWhole.receive {id : Nat} (h : p.IsWhole chunks) (hm : p.move job (.receive id) = some q) :
    q.IsWhole chunks := by
  obtain ⟨w, m, rest, hw, hout, rfl⟩ := move_receive hm
  have hmem := List.mem_of_getElem? hw
  have hsum := sumOf_set Worker.owed { w with outbox := rest } hw
  rw [Worker.owed_received hout] at hsum
  have howed := h.owed
  have hlen : (p.workers.set id { w with outbox := rest }).length = p.workers.length :=
    List.length_set
  have hemptied : ∀ u ∈ p.workers.set id { w with outbox := rest },
      u.phase = .done → p.queue = [] := by
    intro u hu hdone
    rcases List.mem_or_eq_of_mem_set hu with hu | rfl
    · exact h.emptied u hu hdone
    · exact h.emptied w hmem hdone
  have hclosed : ∀ u ∈ p.workers.set id { w with outbox := rest }, u.ClosesLast := by
    intro u hu
    rcases List.mem_or_eq_of_mem_set hu with hu | rfl
    · exact h.closed u hu
    · exact (h.closed w hmem).received hout
  have hheld := fun chunk => held_set hw { w with outbox := rest }
    fun hholds : w.Holds chunk => Worker.holds_received hout hholds
  cases m with
  | finished s =>
    refine ⟨h.length, hlen ▸ h.manned, ?_, hemptied, hclosed, ?_⟩
    · intro chunk hchunk
      rcases h.placed chunk hchunk with hq | hin | he
      · exact Or.inl hq
      · exact Or.inr (Or.inl ((hheld chunk hin).resolve_right (by simp)))
      · exact Or.inr (Or.inr he)
    · simp only [Message.isFinished, if_true] at hsum
      show p.finished + 1 + sumOf Worker.owed (p.workers.set id { w with outbox := rest }) =
        (p.workers.set id { w with outbox := rest }).length
      omega
  | chunkDone chunk ending =>
    refine ⟨List.length_set.trans h.length, hlen ▸ h.manned, ?_, hemptied, hclosed, ?_⟩
    · intro c hc
      show _ ∨ _ ∨ ∃ e, (p.endings.set chunk (some ending))[c]? = some (some e)
      by_cases hcc : chunk = c
      · subst hcc
        exact Or.inr (Or.inr ⟨ending, List.getElem?_set_self (h.length ▸ hc)⟩)
      · rw [List.getElem?_set_ne hcc]
        rcases h.placed c hc with hq | hin | he
        · exact Or.inl hq
        · exact Or.inr (Or.inl ((hheld c hin).resolve_right (by simp [hcc])))
        · exact Or.inr (Or.inr he)
    · simp only [Message.isFinished, Bool.false_eq_true, if_false] at hsum
      show p.finished + sumOf Worker.owed (p.workers.set id { w with outbox := rest }) =
        (p.workers.set id { w with outbox := rest }).length
      omega

theorem IsWhole.reaches (h : p.IsWhole chunks) (hr : Reaches job timed p q) : q.IsWhole chunks := by
  induction hr with
  | refl => exact h
  | @step q r e _ _ hm ih =>
    cases e with
    | work id => exact ih.work hm
    | receive id => exact ih.receive hm
    | signal =>
      obtain rfl := move_signal hm
      exact ⟨ih.length, ih.manned, ih.placed, ih.emptied, ih.closed, ih.owed⟩

/-! ## The end of a pool -/

theorem owed_eq_zero_iff {w : Worker} (h : w.ClosesLast) :
    w.owed = 0 ↔ w.phase = .done ∧ w.outbox = [] := by
  unfold Worker.owed
  constructor
  · intro hzero
    have hdone : w.phase = .done := by
      by_cases hp : w.phase = .done
      · exact hp
      · rw [if_neg hp] at hzero
        omega
    refine ⟨hdone, ?_⟩
    rcases h hdone with hnil | ⟨front, s, hfront⟩
    · exact hnil
    · rw [hfront, List.countP_append, List.countP_singleton] at hzero
      simp [Message.isFinished] at hzero
  · rintro ⟨hdone, hnil⟩
    simp [hdone, hnil]

theorem IsWhole.complete_iff (h : p.IsWhole chunks) :
    p.Complete ↔ ∀ w ∈ p.workers, w.phase = .done ∧ w.outbox = [] := by
  have howed := h.owed
  have hsum : p.Complete ↔ sumOf Worker.owed p.workers = 0 := by
    unfold Complete
    omega
  rw [hsum, sumOf_eq_zero_iff]
  constructor
  · intro hall w hw
    exact (owed_eq_zero_iff (h.closed w hw)).mp (hall w hw)
  · intro hall w hw
    exact (owed_eq_zero_iff (h.closed w hw)).mpr (hall w hw)

theorem move_work_isSome {id : Nat} {w : Worker} (hw : p.workers[id]? = some w)
    (h : w.phase ≠ .done) (job : Job) : (p.move job (.work id)).isSome = true := by
  obtain ⟨⟨queue, shared, v⟩, hv⟩ :=
    Option.isSome_iff_exists.mp (Worker.move_isSome h job p.queue p.shared)
  simp only [move, hw, hv]
  rfl

theorem move_receive_isSome {id : Nat} {w : Worker} (hw : p.workers[id]? = some w)
    (h : w.outbox ≠ []) (job : Job) : (p.move job (.receive id)).isSome = true := by
  obtain ⟨m, rest, hout⟩ := List.exists_cons_of_ne_nil h
  simp only [move, hw, hout]
  rfl

/-- While a pool is not complete, a worker can go on or a message can be received. -/
theorem IsWhole.exists_move (h : p.IsWhole chunks) (job : Job) (hc : ¬ p.Complete) :
    ∃ e q, e ≠ .signal ∧ p.move job e = some q := by
  rw [h.complete_iff] at hc
  simp only [Classical.not_forall] at hc
  obtain ⟨w, hw, hbusy⟩ := hc
  obtain ⟨id, hid⟩ := List.getElem?_of_mem hw
  have hevent : ∃ e, e ≠ .signal ∧ (p.move job e).isSome = true := by
    by_cases hdone : w.phase = .done
    · exact ⟨.receive id, by simp, move_receive_isSome hid (fun hnil => hbusy ⟨hdone, hnil⟩) job⟩
    · exact ⟨.work id, by simp, move_work_isSome hid hdone job⟩
  obtain ⟨e, he, hsome⟩ := hevent
  obtain ⟨q, hq⟩ := Option.isSome_iff_exists.mp hsome
  exact ⟨e, q, he, hq⟩

theorem IsWhole.ending (h : p.IsWhole chunks) (hc : p.Complete) {chunk : Nat}
    (hchunk : chunk < chunks) : ∃ ending, p.endings[chunk]? = some (some ending) := by
  have hidle := h.complete_iff.mp hc
  rcases h.placed chunk hchunk with hq | ⟨id, w, hw, hholds⟩ | he
  · obtain ⟨w, hw⟩ := List.exists_mem_of_length_pos h.manned
    rw [h.emptied w hw (hidle w hw).1] at hq
    simp at hq
  · obtain ⟨hdone, hnil⟩ := hidle w (List.mem_of_getElem? hw)
    rcases hholds with hphase | ⟨e, he⟩
    · simp [hdone, Phase.chunk?] at hphase
    · simp [hnil] at he
  · exact he

theorem verdict_tells {shared : Shared} {endings : List (Option ChunkEnd)} {k : Nat}
    (hbefore : ∀ chunk, chunk < k → job.first? chunk = none)
    (hendings : ∀ i, i < endings.length →
      ∃ ending, endings[i]? = some (some ending) ∧ ending.IsTrue job shared (k + i)) :
    match verdict endings with
    | .found p => (List.range' k endings.length).findSome? job.first? = some p
    | .exhausted => (List.range' k endings.length).findSome? job.first? = none
    | .interrupted => shared.stopped = true := by
  induction endings generalizing k with
  | nil => rfl
  | cons ending endings ih =>
    obtain ⟨e, he, htrue⟩ := hendings 0 (Nat.succ_pos _)
    obtain rfl : ending = some e := Option.some.inj he
    rw [List.length_cons, List.range'_succ, List.findSome?_cons]
    cases e with
    | exhausted =>
      have hnone : job.first? k = none := htrue
      rw [hnone]
      apply ih
      · intro chunk hchunk
        rcases Nat.lt_succ_iff_lt_or_eq.mp hchunk with hlt | rfl
        · exact hbefore chunk hlt
        · exact hnone
      · intro i hi
        obtain ⟨e, he, htrue⟩ := hendings (i + 1) (Nat.succ_lt_succ hi)
        exact ⟨e, he, by rwa [Nat.add_assoc, Nat.add_comm 1]⟩
    | found p =>
      have hsome : job.first? k = some p := htrue
      rw [hsome]
      rfl
    | abandoned =>
      -- A chunk is abandoned only behind one with a proof, and there is none before this one.
      obtain ⟨lower, p, hlt, hp⟩ := htrue
      rw [hbefore lower hlt] at hp
      simp at hp
    | interrupted => exact htrue

end Pool

end LawProof
