import LawProof.Proofs.Scanning
import LawProof.Search.Worker

/-!
# What a worker can do

`Worker.Moves` lists what a worker can do: take a chunk, work on it, report it, finish. What it says
of a chunk is true: a proof that it reports is the first of the chunk, an exhausted chunk has none,
a chunk that it abandons comes after one with a proof, and it is interrupted only when the search
was stopped.
-/

namespace LawProof

namespace Pool

/-! ## Moves -/

/-- The chunk a worker has in its hands. -/
def Phase.chunk? : Phase → Option Nat
  | .seeking | .done => none
  | .taken chunk | .cleared chunk | .broken chunk => some chunk
  | .scanning chunk _ | .polling chunk _ | .comparing chunk _ => some chunk
  | .proved chunk _ => some chunk
  | .reporting chunk _ => some chunk

/-- `p.Advances job shared chunk marks q`: a worker with the chunk in its hands gets from the phase
`p` to `q`, and leaves the marks `marks`. -/
inductive Phase.Advances (job : Job) (shared : Shared) (chunk : Nat) :
    Phase → Shared → Phase → Prop where
  | abandon : shared.isSuperseded chunk = true →
      Advances job shared chunk (.taken chunk) shared (.reporting chunk .abandoned)
  | clear : shared.isSuperseded chunk = false →
      Advances job shared chunk (.taken chunk) shared (.cleared chunk)
  | skip : shared.stopped = true →
      Advances job shared chunk (.cleared chunk) shared (.reporting chunk .interrupted)
  | enter : shared.stopped = false →
      Advances job shared chunk (.cleared chunk) shared (.scanning chunk 0)
  | find {i : Nat} {t : Tally} {p : Proof} :
      (Scan.advance job.start job.goal (job.chunk chunk) i t).1 = .found p →
      Advances job shared chunk (.scanning chunk i) shared (.proved chunk p)
  | exhaust {i : Nat} {t : Tally} :
      (Scan.advance job.start job.goal (job.chunk chunk) i t).1 = .exhausted →
      Advances job shared chunk (.scanning chunk i) shared (.reporting chunk .exhausted)
  | pause {i j : Nat} {t : Tally} :
      (Scan.advance job.start job.goal (job.chunk chunk) i t).1 = .before j →
      Advances job shared chunk (.scanning chunk i) shared (.polling chunk j)
  | obey {i : Nat} : shared.stopped = true →
      Advances job shared chunk (.polling chunk i) shared (.broken chunk)
  | ignore {i : Nat} : shared.stopped = false →
      Advances job shared chunk (.polling chunk i) shared (.comparing chunk i)
  | yield {i : Nat} : shared.isSuperseded chunk = true →
      Advances job shared chunk (.comparing chunk i) shared (.broken chunk)
  | resume {i : Nat} : shared.isSuperseded chunk = false →
      Advances job shared chunk (.comparing chunk i) shared (.scanning chunk i)
  | note {p : Proof} :
      Advances job shared chunk (.proved chunk p) (shared.record chunk).2
        (.reporting chunk (.found p))
  | giveWay : shared.isSuperseded chunk = true →
      Advances job shared chunk (.broken chunk) shared (.reporting chunk .abandoned)
  | giveUp : shared.isSuperseded chunk = false →
      Advances job shared chunk (.broken chunk) shared (.reporting chunk .interrupted)

/-- `w.Moves job shared v queue rest marks`: the worker `w` becomes `v`. The queue and the marks
were `queue` and `shared` and are then `rest` and `marks`. -/
inductive Worker.Moves (job : Job) (shared : Shared) (w v : Worker) :
    List Nat → List Nat → Shared → Prop where
  | finish : w.phase = .seeking → v.phase = .done →
      v.outbox = w.outbox ++ [.finished w.statistics] → Moves job shared w v [] [] shared
  | take {chunk : Nat} {rest : List Nat} : w.phase = .seeking → v.phase = .taken chunk →
      v.outbox = w.outbox → Moves job shared w v (chunk :: rest) rest shared
  | work {chunk : Nat} {queue : List Nat} {marks : Shared} {p : Phase} : w.phase = p →
      p.Advances job shared chunk marks v.phase → v.outbox = w.outbox →
      Moves job shared w v queue queue marks
  | report {chunk : Nat} {ending : ChunkEnd} {queue : List Nat} :
      w.phase = .reporting chunk ending → v.phase = .seeking →
      v.outbox = w.outbox ++ [.chunkDone chunk ending] → Moves job shared w v queue queue shared

theorem Worker.scan_advances (w : Worker) (job : Job) (shared : Shared) (chunk i : Nat) :
    (Phase.scanning chunk i).Advances job shared chunk shared (w.scan job chunk i).phase := by
  unfold scan
  cases ha : Scan.advance job.start job.goal (job.chunk chunk) i w.statistics.tally with
  | mk pause tally =>
    have ha := congrArg Prod.fst ha
    cases pause with
    | found p => exact .find ha
    | exhausted => exact .exhaust ha
    | before j => exact .pause ha

theorem Worker.move_eq_some {w v : Worker} {job : Job} {queue rest : List Nat}
    {shared marks : Shared} (h : w.move job queue shared = some (rest, marks, v)) :
    w.Moves job shared v queue rest marks := by
  cases hphase : w.phase with
  | seeking =>
    cases queue with
    | nil =>
      simp only [move, hphase, Option.some.injEq, Prod.mk.injEq] at h
      obtain ⟨rfl, rfl, rfl⟩ := h
      exact .finish hphase rfl rfl
    | cons chunk queue =>
      simp only [move, hphase, Option.some.injEq, Prod.mk.injEq] at h
      obtain ⟨rfl, rfl, rfl⟩ := h
      exact .take hphase rfl rfl
  | reporting chunk ending =>
    simp only [move, hphase, Option.some.injEq, Prod.mk.injEq] at h
    obtain ⟨rfl, rfl, rfl⟩ := h
    exact .report hphase rfl rfl
  | done => simp [move, hphase] at h
  | taken chunk =>
    simp only [move, hphase] at h
    split at h
    all_goals
      rename_i hs
      simp only [Option.some.injEq, Prod.mk.injEq] at h
      obtain ⟨rfl, rfl, rfl⟩ := h
    · exact .work hphase (.abandon hs) rfl
    · exact .work hphase (.clear (Bool.eq_false_iff.mpr hs)) rfl
  | cleared chunk =>
    simp only [move, hphase] at h
    split at h
    all_goals
      rename_i hs
      simp only [Option.some.injEq, Prod.mk.injEq] at h
      obtain ⟨rfl, rfl, rfl⟩ := h
    · exact .work hphase (.skip hs) rfl
    · exact .work hphase (.enter (Bool.eq_false_iff.mpr hs)) rfl
  | scanning chunk i =>
    simp only [move, hphase, Option.some.injEq, Prod.mk.injEq] at h
    obtain ⟨rfl, rfl, rfl⟩ := h
    exact .work hphase (w.scan_advances job shared chunk i) rfl
  | polling chunk i =>
    simp only [move, hphase, Option.some.injEq, Prod.mk.injEq] at h
    obtain ⟨rfl, rfl, rfl⟩ := h
    have hnext : (Phase.polling chunk i).Advances job shared chunk shared
        (if shared.stopped then .broken chunk else .comparing chunk i) := by
      split
      · rename_i hs
        exact .obey hs
      · rename_i hs
        exact .ignore (Bool.eq_false_iff.mpr hs)
    exact .work hphase hnext rfl
  | comparing chunk i =>
    simp only [move, hphase, Option.some.injEq, Prod.mk.injEq] at h
    obtain ⟨rfl, rfl, rfl⟩ := h
    have hnext : (Phase.comparing chunk i).Advances job shared chunk shared
        (if shared.isSuperseded chunk then .broken chunk else .scanning chunk i) := by
      split
      · rename_i hs
        exact .yield hs
      · rename_i hs
        exact .resume (Bool.eq_false_iff.mpr hs)
    exact .work hphase hnext rfl
  | proved chunk p =>
    simp only [move, hphase, Option.some.injEq, Prod.mk.injEq] at h
    obtain ⟨rfl, rfl, rfl⟩ := h
    exact .work hphase .note rfl
  | broken chunk =>
    simp only [move, hphase, Option.some.injEq, Prod.mk.injEq] at h
    obtain ⟨rfl, rfl, rfl⟩ := h
    have hnext : (Phase.broken chunk).Advances job shared chunk shared (.reporting chunk
        (if shared.isSuperseded chunk then .abandoned else .interrupted)) := by
      split
      · rename_i hs
        exact .giveWay hs
      · rename_i hs
        exact .giveUp (Bool.eq_false_iff.mpr hs)
    exact .work hphase hnext rfl

theorem Worker.move_isSome {w : Worker} (h : w.phase ≠ .done) (job : Job) (queue : List Nat)
    (shared : Shared) : (w.move job queue shared).isSome = true := by
  unfold move
  split
  all_goals
    try split
  all_goals
    first
    | rfl
    | exact absurd ‹w.phase = .done› h

theorem Phase.Advances.chunk?_eq {job : Job} {shared marks : Shared} {chunk : Nat} {p q : Phase}
    (h : p.Advances job shared chunk marks q) : p.chunk? = some chunk ∧ q.chunk? = some chunk := by
  cases h <;> exact ⟨rfl, rfl⟩

/-! ## Truth -/

/-- The first candidate of a chunk that finishes. -/
def Job.first? (job : Job) (chunk : Nat) : Option Proof :=
  (job.chunk chunk).first? job.start job.goal

/-- The lowest chunk that is marked as proved has a proof. -/
def Shared.IsTrue (job : Job) (s : Shared) : Prop :=
  s.lowest < noChunk → ∃ p, job.first? s.lowest = some p

/-- What a worker says of a chunk is so. -/
def ChunkEnd.IsTrue (job : Job) (shared : Shared) (chunk : Nat) : ChunkEnd → Prop
  | .found p => job.first? chunk = some p
  | .exhausted => job.first? chunk = none
  | .abandoned => ∃ lower p, lower < chunk ∧ job.first? lower = some p
  | .interrupted => shared.stopped = true

/-- What the phase of a worker says of its chunk is so. -/
def Phase.IsTrue (job : Job) (shared : Shared) : Phase → Prop
  | .seeking | .done => True
  | .taken chunk | .cleared chunk => chunk < noChunk
  | .scanning chunk i | .polling chunk i | .comparing chunk i =>
    chunk < noChunk ∧ (job.chunk chunk).Clear job.start job.goal i
  | .proved chunk p => chunk < noChunk ∧ job.first? chunk = some p
  | .broken chunk => chunk < noChunk ∧ (shared.stopped = true ∨ shared.lowest < chunk)
  | .reporting chunk ending => ending.IsTrue job shared chunk

/-- The marks at a later time: the lowest chunk only goes down, and a stop is for good. -/
structure Shared.Later (s s' : Shared) : Prop where
  lowest : s'.lowest ≤ s.lowest
  stopped : s.stopped = true → s'.stopped = true

section

variable {job : Job} {shared marks : Shared} {chunk : Nat}

theorem Shared.Later.refl (s : Shared) : s.Later s := ⟨Nat.le_refl _, id⟩

theorem ChunkEnd.IsTrue.later {e : ChunkEnd} (h : e.IsTrue job shared chunk)
    (hl : shared.Later marks) : e.IsTrue job marks chunk := by
  cases e with
  | found p | exhausted | abandoned => exact h
  | interrupted => exact hl.stopped h

theorem Phase.IsTrue.later {p : Phase} (h : p.IsTrue job shared) (hl : shared.Later marks) :
    p.IsTrue job marks := by
  cases p with
  | broken chunk =>
    obtain ⟨hchunk, hstop | hlow⟩ := h
    · exact ⟨hchunk, Or.inl (hl.stopped hstop)⟩
    · exact ⟨hchunk, Or.inr (Nat.lt_of_le_of_lt hl.lowest hlow)⟩
  | reporting chunk ending => exact ChunkEnd.IsTrue.later h hl
  | _ => exact h

theorem Shared.isSuperseded_iff : shared.isSuperseded chunk = true ↔ shared.lowest < chunk := by
  unfold isSuperseded
  exact decide_eq_true_iff

theorem Shared.IsTrue.abandoned (h : shared.IsTrue job) (hchunk : chunk < noChunk)
    (hs : shared.lowest < chunk) : ChunkEnd.abandoned.IsTrue job shared chunk := by
  obtain ⟨p, hp⟩ := h (Nat.lt_trans hs hchunk)
  exact ⟨shared.lowest, p, hs, hp⟩

theorem Phase.Advances.later {p q : Phase} (h : p.Advances job shared chunk marks q) :
    shared.Later marks := by
  cases h with
  | note => exact ⟨Nat.min_le_left .., id⟩
  | _ => exact .refl _

theorem Phase.Advances.stopped_eq {p q : Phase} (h : p.Advances job shared chunk marks q) :
    marks.stopped = shared.stopped := by
  cases h <;> rfl

theorem Phase.Advances.marks_isTrue {p q : Phase} (h : p.Advances job shared chunk marks q)
    (hshared : shared.IsTrue job) (hp : p.IsTrue job shared) : marks.IsTrue job := by
  cases h with
  | @note r =>
    intro hlt
    show ∃ r, job.first? (min shared.lowest chunk) = some r
    rcases Nat.le_total shared.lowest chunk with hle | hle
    · rw [Nat.min_eq_left hle]
      have : min shared.lowest chunk < noChunk := hlt
      exact hshared (by omega)
    · rw [Nat.min_eq_right hle]
      exact ⟨r, hp.2⟩
  | _ => exact hshared

theorem Phase.Advances.isTrue {p q : Phase} (h : p.Advances job shared chunk marks q)
    (hshared : shared.IsTrue job) (hp : p.IsTrue job shared) : q.IsTrue job marks := by
  cases h with
  | abandon hs => exact hshared.abandoned hp (Shared.isSuperseded_iff.mp hs)
  | clear _ => exact hp
  | skip hs => exact hs
  | enter _ => exact ⟨hp, Candidates.clear_zero _ _ _⟩
  | @find i t p hadvance =>
    have := Scan.advance_tells t hp.2
    rw [hadvance] at this
    exact ⟨hp.1, this⟩
  | @exhaust i t hadvance =>
    have := Scan.advance_tells t hp.2
    rw [hadvance] at this
    exact this
  | @pause i j t hadvance =>
    have := Scan.advance_tells t hp.2
    rw [hadvance] at this
    exact ⟨hp.1, this⟩
  | obey hs => exact ⟨hp.1, Or.inl hs⟩
  | ignore _ => exact hp
  | yield hs => exact ⟨hp.1, Or.inr (Shared.isSuperseded_iff.mp hs)⟩
  | resume _ => exact hp
  | note => exact hp.2
  | giveWay hs => exact hshared.abandoned hp.1 (Shared.isSuperseded_iff.mp hs)
  | giveUp hs =>
    -- The scan was broken off for one of two reasons, and the other one is ruled out.
    rcases hp.2 with hstop | hlow
    · exact hstop
    · rw [← Shared.isSuperseded_iff, hs] at hlow
      simp at hlow

end

/-- What a worker says in its phase and in its messages is so. -/
structure Worker.IsTrue (job : Job) (shared : Shared) (w : Worker) : Prop where
  phase : w.phase.IsTrue job shared
  sent : ∀ chunk ending, .chunkDone chunk ending ∈ w.outbox → ending.IsTrue job shared chunk

theorem Worker.IsTrue.later {job : Job} {shared marks : Shared} {w : Worker}
    (h : w.IsTrue job shared) (hl : shared.Later marks) : w.IsTrue job marks :=
  ⟨h.phase.later hl, fun chunk ending hm => (h.sent chunk ending hm).later hl⟩

/-! ## Where a chunk is -/

/-- The worker has the chunk in its hands, or word of it on the way. -/
def Worker.Holds (w : Worker) (chunk : Nat) : Prop :=
  w.phase.chunk? = some chunk ∨ ∃ ending, .chunkDone chunk ending ∈ w.outbox

def Message.isFinished : Message → Bool
  | .finished _ => true
  | .chunkDone _ _ => false

/-- How often the coordinator has yet to hear that the worker is finished. -/
def Worker.owed (w : Worker) : Nat :=
  (if w.phase = .done then 0 else 1) + w.outbox.countP Message.isFinished

/-- Once a worker is done, its last message is that it is finished. -/
def Worker.ClosesLast (w : Worker) : Prop :=
  w.phase = .done → w.outbox = [] ∨ ∃ front s, w.outbox = front ++ [.finished s]

section

variable {w : Worker} {m : Message} {rest : List Message} (hout : w.outbox = m :: rest)
include hout

theorem Worker.holds_received {chunk : Nat} (h : w.Holds chunk) :
    ({ w with outbox := rest } : Worker).Holds chunk ∨ ∃ ending, m = .chunkDone chunk ending := by
  rcases h with hphase | ⟨e, he⟩
  · exact Or.inl (Or.inl hphase)
  · rw [hout] at he
    rcases List.mem_cons.mp he with heq | he
    · exact Or.inr ⟨e, heq.symm⟩
    · exact Or.inl (Or.inr ⟨e, he⟩)

theorem Worker.owed_received :
    w.owed = ({ w with outbox := rest } : Worker).owed + if m.isFinished then 1 else 0 := by
  simp only [owed, hout, List.countP_cons]
  omega

theorem Worker.ClosesLast.received (h : w.ClosesLast) :
    ({ w with outbox := rest } : Worker).ClosesLast := by
  intro hdone
  rcases h hdone with hnil | ⟨front, s, hfront⟩
  · rw [hout] at hnil
    simp at hnil
  · rw [hout] at hfront
    cases front with
    | nil => exact Or.inl (List.cons.inj hfront).2
    | cons x front => exact Or.inr ⟨front, s, (List.cons.inj hfront).2⟩

end

namespace Worker.Moves

variable {job : Job} {shared marks : Shared} {w v : Worker} {queue rest : List Nat}

theorem later (h : w.Moves job shared v queue rest marks) : shared.Later marks := by
  cases h with
  | work _ ha _ => exact ha.later
  | _ => exact .refl _

theorem stopped_eq (h : w.Moves job shared v queue rest marks) :
    marks.stopped = shared.stopped := by
  cases h with
  | work _ ha _ => exact ha.stopped_eq
  | _ => rfl

theorem rest_subset (h : w.Moves job shared v queue rest marks) : rest ⊆ queue := by
  cases h with
  | take _ _ _ => exact List.subset_cons_self _ _
  | _ => exact fun _ => id

theorem marks_isTrue (h : w.Moves job shared v queue rest marks) (hshared : shared.IsTrue job)
    (hw : w.IsTrue job shared) : marks.IsTrue job := by
  cases h with
  | work hp ha _ => exact ha.marks_isTrue hshared (hp ▸ hw.phase)
  | _ => exact hshared

theorem isTrue (h : w.Moves job shared v queue rest marks) (hshared : shared.IsTrue job)
    (hqueue : ∀ chunk ∈ queue, chunk < noChunk) (hw : w.IsTrue job shared) :
    v.IsTrue job marks := by
  have hsent := (hw.later h.later).sent
  cases h with
  | finish _ hv hout =>
    refine ⟨by rw [hv]; trivial, ?_⟩
    intro chunk ending hm
    rw [hout, List.mem_append, List.mem_singleton] at hm
    rcases hm with hm | hm
    · exact hsent chunk ending hm
    · simp at hm
  | take _ hv hout =>
    refine ⟨?_, by rwa [hout]⟩
    rw [hv]
    exact hqueue _ List.mem_cons_self
  | work hp ha hout => exact ⟨ha.isTrue hshared (hp ▸ hw.phase), by rwa [hout]⟩
  | @report chunk ending _ hp hv hout =>
    refine ⟨by rw [hv]; trivial, ?_⟩
    intro c e hm
    rw [hout, List.mem_append, List.mem_singleton] at hm
    rcases hm with hm | hm
    · exact hsent c e hm
    · obtain ⟨rfl, rfl⟩ := Message.chunkDone.inj hm
      have := hw.phase
      rwa [hp] at this

theorem holds (h : w.Moves job shared v queue rest marks) {chunk : Nat} (hw : w.Holds chunk) :
    v.Holds chunk := by
  cases h with
  | finish hp _ hout =>
    rcases hw with hw | ⟨e, he⟩
    · simp [hp, Phase.chunk?] at hw
    · exact Or.inr ⟨e, hout ▸ List.mem_append_left _ he⟩
  | take hp _ hout =>
    rcases hw with hw | ⟨e, he⟩
    · simp [hp, Phase.chunk?] at hw
    · exact Or.inr ⟨e, hout ▸ he⟩
  | work hp ha hout =>
    obtain ⟨hbefore, hafter⟩ := ha.chunk?_eq
    rcases hw with hw | ⟨e, he⟩
    · rw [hp, hbefore] at hw
      exact Or.inl (hafter.trans hw)
    · exact Or.inr ⟨e, hout ▸ he⟩
  | @report c e _ hp _ hout =>
    rcases hw with hw | ⟨e, he⟩
    · rw [hp] at hw
      obtain rfl : c = chunk := Option.some.inj hw
      exact Or.inr ⟨e, by simp [hout]⟩
    · exact Or.inr ⟨e, hout ▸ List.mem_append_left _ he⟩

theorem mem_rest_or_holds (h : w.Moves job shared v queue rest marks) {chunk : Nat}
    (hq : chunk ∈ queue) : chunk ∈ rest ∨ v.Holds chunk := by
  cases h with
  | @take c rest _ hv _ =>
    rcases List.mem_cons.mp hq with rfl | hq
    · exact Or.inr (Or.inl (by rw [hv]; rfl))
    · exact Or.inl hq
  | _ => exact Or.inl hq

theorem owed_eq (h : w.Moves job shared v queue rest marks) : v.owed = w.owed := by
  unfold owed
  cases h with
  | finish hp hv hout => simp [hp, hv, hout, Message.isFinished, Nat.add_comm]
  | take hp hv hout => simp [hp, hv, hout]
  | @work _ _ _ p hp ha hout =>
    have hbefore : p ≠ .done := by
      rintro rfl
      have := ha.chunk?_eq.1
      simp [Phase.chunk?] at this
    have hafter : v.phase ≠ .done := by
      intro hdone
      have := ha.chunk?_eq.2
      rw [hdone] at this
      simp [Phase.chunk?] at this
    simp [hp, hbefore, hafter, hout]
  | report hp hv hout => simp [hp, hv, hout, Message.isFinished]

theorem done (h : w.Moves job shared v queue rest marks) (hdone : v.phase = .done) :
    rest = [] ∧ ∃ front s, v.outbox = front ++ [.finished s] := by
  cases h with
  | finish _ _ hout => exact ⟨rfl, _, _, hout⟩
  | take _ hv _ =>
    rw [hv] at hdone
    simp at hdone
  | work _ ha _ =>
    have := ha.chunk?_eq.2
    rw [hdone] at this
    simp [Phase.chunk?] at this
  | report _ hv _ =>
    rw [hv] at hdone
    simp at hdone

end Worker.Moves

end Pool

end LawProof
