import LawProof.Census
import LawProof.Proofs.Agreement
import LawProof.Proofs.Listing
import LawProof.Proofs.Minimality

/-!
# What a census covers

A census looks at every formula of a size, keeps those that have the goal's value under every
assignment, and has a shortest proof of each that has one within the limit. Without a timeout the
searches have one outcome each, however they are made, so there is one report.
-/

namespace LawProof

/-! ## Searches -/

namespace Search

/-- A search with these settings can have this outcome: alone, or by a pool in any interleaving. If
there is a timeout it may pass at any time. -/
def CanEnd (config : Config) (pool : PoolConfig) (f : Formula) (goal : Goal) (o : Outcome) : Prop :=
  match config.algorithm with
  | .enumerative => ∃ expired : Deadline,
    (∀ n, expired n = true → (timeout? config pool).isSome = true) ∧
      (Sequential.search expired config f goal).outcome = o
  | .parallel => Pool.CanEnd (timeout? config pool).isSome config pool f goal o

theorem canEnd_runStill (config : Config) (pool : PoolConfig) (f : Formula) (goal : Goal) :
    CanEnd config pool f goal (runStill config pool f goal).outcome := by
  have hstill : ∀ n, Deadline.still (timeout? config pool) n = true →
      (timeout? config pool).isSome = true := by
    intro n hn
    rw [eq_of_beq hn]
    rfl
  unfold CanEnd runStill run
  cases config.algorithm with
  | enumerative => exact ⟨_, hstill, rfl⟩
  | parallel => exact Pool.yields_searchAfter hstill ..

theorem CanEnd.eq_answer {config : Config} {pool : PoolConfig} {f : Formula} {goal : Goal}
    {o : Outcome} (h : CanEnd config pool f goal o) :
    o = answer (.ofFormula f) goal (config.positionsFor f) config.maxLength 1 ∨
      o = .timedOut ∧ (timeout? config pool).isSome = true := by
  unfold CanEnd at h
  split at h
  · obtain ⟨expired, hexpired, rfl⟩ := h
    rcases Sequential.outcome_eq expired config f goal with heq | ⟨hout, n, hn⟩
    · exact Or.inl heq
    · exact Or.inr ⟨hout, hexpired n hn⟩
  · exact Pool.Yields.eq_answer h

theorem CanEnd.eq_searchUpTo {config : Config} {pool : PoolConfig} {f : Formula} {goal : Goal}
    {o : Outcome} (h : CanEnd config pool f goal o) (hlimit : config.positionLimit = none)
    (htimeout : timeout? config pool = none) : o = searchUpTo f goal config.maxLength := by
  have hpositions : config.positionsFor f = f.capacity := by
    unfold Config.positionsFor
    rw [hlimit]
    rfl
  rw [searchUpTo_eq, ← hpositions]
  rcases h.eq_answer with heq | ⟨-, hsome⟩
  · exact heq
  · simp [htimeout] at hsome

end Search

/-! ## The survey -/

namespace Survey

/-- The formulas that match the goal. -/
def matching (goal : Goal) (fs : List Formula) : List Formula :=
  fs.filter fun f => (f.classify goal).fits goal

theorem foldl_add (goal : Goal) (fs : List Formula) (s : Survey) :
    (fs.foldl (add goal) s).valid = s.valid + fs.length ∧
      (fs.foldl (add goal) s).found.toList = s.found.toList ++ matching goal fs := by
  induction fs generalizing s with
  | nil => simp [matching]
  | cons f fs ih =>
    obtain ⟨hvalid, hfound⟩ := ih (s.add goal f)
    rw [List.foldl_cons, hvalid, hfound]
    unfold add matching
    rw [List.filter_cons]
    constructor
    · simp only [List.length_cons]
      omega
    · split <;> simp

theorem take_spec (n slack : Nat) (goal : Goal) :
    (take ⟨n, slack⟩ goal).valid = (Enumeration.formulas n slack).length ∧
      (take ⟨n, slack⟩ goal).found.toList = matching goal (Enumeration.formulas n slack) := by
  unfold take
  rw [Enumeration.foldFrom_eq, Enumeration.formulasFrom_space]
  simpa using foldl_add goal (Enumeration.formulas n slack) ⟨0, #[]⟩

end Survey

/-! ## The report -/

namespace Census

theorem valid_record (r : Report) (f : Formula) (o : Outcome) : (r.record f o).valid = r.valid := by
  unfold Report.record
  dsimp only
  split <;> rfl

theorem foldl_record (outcomes : List (Formula × Outcome)) (r : Report) :
    (outcomes.foldl (fun r (f, o) => r.record f o) r).valid = r.valid ∧
      (outcomes.foldl (fun r (f, o) => r.record f o) r).entries =
        r.entries ++ outcomes.map fun (f, o) => ⟨f, o.proof?⟩ := by
  induction outcomes generalizing r with
  | nil => simp
  | cons next outcomes ih =>
    obtain ⟨hvalid, hentries⟩ := ih (r.record next.1 next.2)
    rw [List.foldl_cons, hvalid, hentries, valid_record]
    simp [Report.record]

/-- The report on the formulas with `n` symbols when each search is left to finish. -/
def settled (n slack : Nat) (goal : Goal) (maxLength : Nat) : Report :=
  report { maxLength, slack } n goal (Enumeration.formulas n slack).length
    ((Survey.matching goal (Enumeration.formulas n slack)).map fun f =>
      (f, searchUpTo f goal maxLength))

theorem valid_settled (n slack : Nat) (goal : Goal) (maxLength : Nat) :
    (settled n slack goal maxLength).valid = (Enumeration.formulas n slack).length :=
  (foldl_record _ _).1

theorem entries_settled (n slack : Nat) (goal : Goal) (maxLength : Nat) :
    (settled n slack goal maxLength).entries =
      (Survey.matching goal (Enumeration.formulas n slack)).map fun f =>
        ⟨f, (searchUpTo f goal maxLength).proof?⟩ := by
  unfold settled report
  rw [(foldl_record _ _).2, List.map_map]
  rfl

theorem runWith_eq {config : Config} {n : Nat} {goal : Goal} {search : Formula → Outcome}
    (hnew : Enumeration.new n config.slack = .ok ⟨n, config.slack⟩)
    (hlimit : config.positionLimit = none)
    (hsearch : ∀ f, search f = searchUpTo f goal config.maxLength) :
    runWith search config n goal = .ok (settled n config.slack goal config.maxLength) := by
  obtain ⟨hvalid, hfound⟩ := Survey.take_spec n config.slack goal
  unfold runWith
  rw [hnew]
  simp only [hvalid, hfound, hsearch]
  unfold settled report positions
  rw [hlimit]

/-- What a report is to say of the formulas with `n` symbols: how many there are, and which of them
have the goal's value everywhere, each with a shortest proof. -/
structure Covers (n slack : Nat) (goal : Goal) (maxLength : Nat) (r : Report) : Prop where
  counted : ∃ bodies : List (List Symbol), bodies.Nodup ∧ r.valid = bodies.length ∧
    ∀ body, body ∈ bodies ↔ body.length = n ∧ ∃ f, Formula.ofBody body slack = .ok f
  mem_entries : ∀ f, f ∈ r.entries.map Entry.formula ↔
    ∃ body : List Symbol, body.length = n ∧ Formula.ofBody body slack = .ok f ∧
      ∀ bits, bits < Nat.pow 2 maxVariables → Body.evaluate body bits = some goal.value
  ascend : (r.entries.map Entry.formula).Pairwise Formula.Before
  shortest : ∀ entry ∈ r.entries, IsShortest entry.formula goal maxLength entry.proof?

theorem mem_matching_iff {n slack : Nat} (hn : minSymbols ≤ n) {goal : Goal} {f : Formula} :
    f ∈ Survey.matching goal (Enumeration.formulas n slack) ↔
      ∃ body : List Symbol, body.length = n ∧ Formula.ofBody body slack = .ok f ∧
        ∀ bits, bits < Nat.pow 2 maxVariables → Body.evaluate body bits = some goal.value := by
  unfold Survey.matching
  rw [List.mem_filter, Enumeration.mem_formulas_iff hn]
  constructor
  · rintro ⟨⟨body, hlength, hf⟩, hfits⟩
    exact ⟨body, hlength, hf, (Formula.fits_classify_iff_evaluate hf).mp hfits⟩
  · rintro ⟨body, hlength, hf, hevaluate⟩
    exact ⟨⟨body, hlength, hf⟩, (Formula.fits_classify_iff_evaluate hf).mpr hevaluate⟩

theorem mem_bodies_iff {n slack : Nat} (hn : minSymbols ≤ n) {body : List Symbol} :
    body ∈ (Enumeration.formulas n slack).map Formula.body ↔
      body.length = n ∧ ∃ f, Formula.ofBody body slack = .ok f := by
  rw [List.mem_map]
  constructor
  · rintro ⟨f, hf, rfl⟩
    obtain ⟨body, hlength, hbody⟩ := (Enumeration.mem_formulas_iff hn).mp hf
    rw [(Formula.ofBody_eq_ok hbody).2]
    exact ⟨hlength, f, hbody⟩
  · rintro ⟨hlength, f, hf⟩
    exact ⟨f, (Enumeration.mem_formulas_iff hn).mpr ⟨body, hlength, hf⟩,
      (Formula.ofBody_eq_ok hf).2⟩

theorem nodup_bodies {n : Nat} (hn : 0 < n) (slack : Nat) :
    ((Enumeration.formulas n slack).map Formula.body).Nodup := by
  apply List.pairwise_map.mpr
  exact (Enumeration.pairwise_formulas hn slack).imp Formula.Before.body_ne

theorem covers_settled {n : Nat} (hn : minSymbols ≤ n) (slack : Nat) (goal : Goal)
    (maxLength : Nat) : Covers n slack goal maxLength (settled n slack goal maxLength) := by
  have hpos := Enumeration.pos_of_minSymbols_le hn
  have hformulas : (settled n slack goal maxLength).entries.map Entry.formula =
      Survey.matching goal (Enumeration.formulas n slack) := by
    rw [entries_settled, List.map_map]
    exact List.map_id _
  refine ⟨⟨_, nodup_bodies hpos slack, ?_, fun _ => mem_bodies_iff hn⟩, ?_, ?_, ?_⟩
  · rw [valid_settled, List.length_map]
  · intro f
    rw [hformulas, mem_matching_iff hn]
  · rw [hformulas]
    exact (Enumeration.pairwise_formulas hpos slack).filter _
  · intro entry hentry
    rw [entries_settled, List.mem_map] at hentry
    obtain ⟨f, -, rfl⟩ := hentry
    exact isShortest_searchUpTo f goal maxLength

/-- Without a timeout and a limit on positions a census has one report, whoever makes the searches,
and it covers the formulas of its size. -/
theorem run_covers {n slack : Nat} (hmin : minSymbols ≤ n) (hmax : n ≤ maxVariables)
    (hslack : minSlack ≤ slack) (goal : Goal) (maxLength : Nat) :
    ∃ r, Covers n slack goal maxLength r ∧
      ∀ config pool, config.slack = slack → config.maxLength = maxLength →
        config.positionLimit = none → Search.timeout? config pool = none →
        run config pool n goal = .ok r ∧
        ∀ search : Formula → Outcome,
          (∀ f, Search.CanEnd config pool f goal (search f)) →
          runWith search config n goal = .ok r := by
  refine ⟨settled n slack goal maxLength, covers_settled hmin slack goal maxLength, ?_⟩
  rintro config pool rfl rfl hlimit htimeout
  have hrun : ∀ search : Formula → Outcome, (∀ f, Search.CanEnd config pool f goal (search f)) →
      runWith search config n goal = .ok (settled n config.slack goal config.maxLength) := by
    intro search hsearch
    exact runWith_eq (Enumeration.new_eq_ok hmin hmax hslack) hlimit
      fun f => (hsearch f).eq_searchUpTo hlimit htimeout
  exact ⟨hrun _ fun f => Search.canEnd_runStill config pool f goal, hrun⟩

theorem run_covers_three :
    ∃ r, Covers 3 7 .contradiction 1 r ∧
      run { maxLength := 1 } {} 3 .contradiction = .ok r ∧
      run { algorithm := .parallel, maxLength := 1 } { workers := 3 } 3 .contradiction = .ok r ∧
      r.valid = 25 ∧
      r.entries.map (·.proof?.isSome) = [true, true, true, true, false, true, true] := by
  obtain ⟨r, hcovers, hr⟩ :=
    run_covers (n := 3) (by decide) (by decide) (Nat.le_refl 7) .contradiction 1
  obtain ⟨halone, -⟩ := hr { maxLength := 1 } {} rfl rfl rfl rfl
  obtain ⟨hpool, -⟩ :=
    hr { algorithm := .parallel, maxLength := 1 } { workers := 3 } rfl rfl rfl rfl
  have hread : (run { maxLength := 1 } {} 3 .contradiction).map
      (fun r => (r.valid, r.entries.map (·.proof?.isSome))) =
      .ok (25, [true, true, true, true, false, true, true]) := by decide +kernel
  rw [halone, Except.map, Except.ok.injEq, Prod.mk.injEq] at hread
  exact ⟨r, hcovers, halone, hpool, hread⟩

end Census

end LawProof
