import LawProof.Proofs.Cascades
import LawProof.Sum

/-!
# Counting with a list of pending symbols

The occurrences in a body can be counted without a recursion. The symbols still to be looked at are
kept on a stack; one after another is taken off, and for a name that is met, what it stands for goes
on top. So the stack can grow, and the order is not that of the definitions. But with each variable
that is taken off there is one occurrence less to be met, and the counts at the end are those of the
recursion. They decide whether a table is consistent.
-/

namespace LawProof

theorem Body.varsOf_reverse (body : List Symbol) : varsOf body.reverse = (varsOf body).reverse :=
  List.filterMap_reverse

namespace Bindings

open Body (varsOf)

/-! ## Occurrences -/

/-- The least bound above all ids in a body. -/
def idBound (body : List Symbol) : Nat := (varsOf body).foldr (fun v n => max (v.id + 1) n) 0

theorem idBound_le_iff {body : List Symbol} {n : Nat} :
    idBound body ≤ n ↔ ∀ v ∈ varsOf body, v.id < n := by
  unfold idBound
  induction varsOf body with
  | nil => simp
  | cons v vs ih => rw [List.foldr_cons, Nat.max_le, List.forall_mem_cons, ih, Nat.succ_le_iff]

theorem idBound_operandsOf_lt {t : Bindings} (h : t.isWellFounded = true) {body : List Symbol}
    {v : Var} (hv : v ∈ varsOf body) : idBound (t.operandsOf v) < idBound body := by
  have hparts : idBound (t.operandsOf v) ≤ v.id := by
    rw [idBound_le_iff, varsOf_operandsOf]
    exact descends_of_isWellFounded h v
  exact Nat.lt_of_le_of_lt hparts (idBound_le_iff.mp (Nat.le_refl _) v hv)

/-- The occurrences of a variable in a body, and those in what each variable of the body stands
for. -/
def occ (t : Bindings) (h : t.isWellFounded = true) (body : List Symbol) (w : Var) : Nat :=
  (varsOf body).count w + sumOf (fun v => occ t h (t.operandsOf v.1) w) (varsOf body).attach
termination_by idBound body
decreasing_by exact idBound_operandsOf_lt h v.2

theorem occ_eq {t : Bindings} (h : t.isWellFounded = true) (body : List Symbol) (w : Var) :
    occ t h body w =
      (varsOf body).count w + sumOf (fun v => occ t h (t.operandsOf v) w) (varsOf body) := by
  have hattach := sumOf_map (fun v => occ t h (t.operandsOf v) w) Subtype.val (varsOf body).attach
  rw [List.attach_map_subtype_val] at hattach
  rw [occ, hattach]

theorem Spelled.count_eq {t : Bindings} (h : t.isWellFounded = true) {xs vs : List Var}
    (hs : Spelled t xs vs) (w : Var) :
    xs.count w + sumOf (fun v => occ t h (t.operandsOf v) w) xs = vs.count w := by
  induction hs with
  | nil => rfl
  | @cons v rest us ws _ _ ihparts ihrest =>
    rw [sumOf_cons, occ_eq, varsOf_operandsOf, ihparts, List.count_append, List.count_cons,
      List.count_cons, ← ihrest]
    omega

theorem occ_eq_count {t : Bindings} (h : t.isWellFounded = true) (body : List Symbol) (w : Var) :
    occ t h body w = (t.occurrences body).count w := by
  have hspelled := spelled_chainBound (descends_of_isWellFounded h) (varsOf body)
  rw [occ_eq, hspelled.count_eq h, occurrences_eq_spell]

/-! ## The loop -/

/-- A count under way. The head of `pending` is the top of the stack. -/
structure Recount where
  pending : List Symbol
  counts : List (Var × Nat)
deriving DecidableEq, Repr

namespace Recount

/-- The last symbol of a body is looked at first. -/
def start (body : List Symbol) : Recount := ⟨body.reverse, []⟩

/-- Takes one symbol off the stack, if there is one. -/
def next? (t : Bindings) (r : Recount) : Option Recount :=
  match r.pending with
  | [] => none
  | s :: rest =>
    match s.var? with
    | none => some ⟨rest, r.counts⟩
    | some v => some ⟨(t.operandsOf v).reverse ++ rest, tally v r.counts⟩

/-- `Ends t r counts`: going on from `r`, the stack gets empty, and then these are the counts. -/
inductive Ends (t : Bindings) : Recount → List (Var × Nat) → Prop where
  | done {r : Recount} : r.next? t = none → Ends t r r.counts
  | step {r r' : Recount} {counts : List (Var × Nat)} : r.next? t = some r' → Ends t r' counts →
      Ends t r counts

/-- `Owes t total r vs`: the variables that will still be taken off are `vs`, in some order, and
with them the counts come to `total`. -/
structure Owes (t : Bindings) (total : Var → Nat) (r : Recount) (vs : List Var) : Prop where
  counts : Counts r.counts
  spelled : Spelled t (varsOf r.pending) vs
  total : ∀ w, tallied w r.counts + vs.count w = total w

variable {t : Bindings} {total : Var → Nat}

theorem owes_start {body : List Symbol} {vs : List Var} (h : Spelled t (varsOf body) vs) :
    ∃ ws, (start body).Owes t (fun w => vs.count w) ws := by
  have hperm : (varsOf body).Perm (varsOf body.reverse) := by
    rw [Body.varsOf_reverse]
    exact (List.reverse_perm _).symm
  obtain ⟨ws, hws, hcount⟩ := h.perm hperm
  refine ⟨ws, ⟨.nil, by simp [start]⟩, hws, fun w => ?_⟩
  rw [hcount.count_eq]
  exact Nat.zero_add _

theorem Owes.next {r r' : Recount} {vs : List Var} (h : r.Owes t total vs)
    (hr : r.next? t = some r') :
    ∃ vs', r'.Owes t total vs' ∧
      (vs'.length < vs.length ∨ vs'.length = vs.length ∧ r'.pending.length < r.pending.length) := by
  obtain ⟨pending, counts⟩ := r
  obtain ⟨hcounts, hspelled, htotal⟩ := h
  unfold next? at hr
  cases pending with
  | nil => simp at hr
  | cons s rest =>
    cases hs : s.var? with
    | none =>
      simp only [hs, Option.some.injEq] at hr
      subst hr
      -- Nothing is counted, but the stack is lower.
      unfold Body.varsOf at hspelled
      rw [List.filterMap_cons_none hs] at hspelled
      exact ⟨vs, ⟨hcounts, hspelled, htotal⟩, Or.inr ⟨rfl, Nat.lt_succ_self _⟩⟩
    | some v =>
      simp only [hs, Option.some.injEq] at hr
      subst hr
      unfold Body.varsOf at hspelled
      rw [List.filterMap_cons_some hs] at hspelled
      cases hspelled with
      | @cons _ _ us ws hparts hrest =>
        have hperm : (t.parts v ++ varsOf rest).Perm
            (varsOf ((t.operandsOf v).reverse ++ rest)) := by
          rw [Body.varsOf_append, Body.varsOf_reverse, varsOf_operandsOf]
          exact (List.reverse_perm _).symm.append_right _
        obtain ⟨vs', hvs', hcount⟩ := (hparts.append hrest).perm hperm
        refine ⟨vs', ⟨hcounts.tally v, hvs', fun w => ?_⟩, Or.inl ?_⟩
        · have hbefore : tallied w counts + ([v] ++ (us ++ ws)).count w = total w := htotal w
          rw [List.count_append, ← Nat.add_assoc] at hbefore
          rw [hcounts.tallied_tally, ← hcount.count_eq]
          exact hbefore
        · rw [← hcount.length_eq]
          exact Nat.lt_succ_self _

theorem Owes.ends {r : Recount} {vs : List Var} (h : r.Owes t total vs) :
    ∃ counts, Ends t r counts ∧ Counts counts ∧ ∀ w, tallied w counts = total w := by
  -- Fewer and fewer occurrences are owed, and between two of them the stack only gets lower.
  cases hr : r.next? t with
  | none =>
    have hpending : r.pending = [] := by
      unfold next? at hr
      split at hr
      · assumption
      · split at hr <;> simp at hr
    refine ⟨r.counts, .done hr, h.counts, fun w => ?_⟩
    have hspelled := h.spelled
    rw [hpending] at hspelled
    cases hspelled
    exact h.total w
  | some r' =>
    obtain ⟨vs', hvs', hlt⟩ := h.next hr
    obtain ⟨counts, hends, hcounts⟩ := hvs'.ends
    exact ⟨counts, .step hr hends, hcounts⟩
termination_by (vs.length, r.pending.length)
decreasing_by
  rcases hlt with hlt | ⟨heq, hlt⟩
  · exact Prod.Lex.left _ _ hlt
  · rw [heq]
    exact Prod.Lex.right _ hlt

end Recount

/-- The check of a table against a body comes to an end, and the table passes exactly if it has on
record, for every variable, the number of its occurrences. -/
theorem isConsistentWith_exact {t : Bindings} (ho : Ordered t.entries)
    (hw : t.isWellFounded = true) (hp : ∀ v b, t.get? v = some b → 0 < b.count)
    (body : List Symbol) :
    (∃ counts, Recount.Ends t (.start body) counts ∧
      t.isConsistentWith body = (t.counts == counts)) ∧
    (t.isConsistentWith body = true ↔ ∀ v, t.count (.var v) = occ t hw body v) := by
  refine ⟨?_, ?_⟩
  · have hspelled := spelled_chainBound (descends_of_isWellFounded hw) (varsOf body)
    rw [← occurrences_eq_spell] at hspelled
    obtain ⟨vs, howes⟩ := Recount.owes_start hspelled
    obtain ⟨counts, hends, hcounts, htallied⟩ := howes.ends
    obtain ⟨hfold, htally⟩ := counts_foldl_tally (t.occurrences body) (l := []) ⟨.nil, by simp⟩
    have heq : counts = (t.occurrences body).foldl (fun counts v => tally v counts) [] := by
      apply hcounts.ext hfold
      intro w
      rw [htallied, htally]
      exact (Nat.zero_add _).symm
    exact ⟨counts, hends, by rw [heq]; rfl⟩
  · rw [isConsistentWith_iff ho hp]
    apply forall_congr'
    intro v
    rw [occ_eq_count]
    rfl

theorem isConsistentWith_exact_constant :
    let t : Bindings :=
      ⟨[(⟨0⟩, ⟨2, none⟩), (⟨1⟩, ⟨1, none⟩), (⟨64⟩, ⟨2, some (.disj (.x 0) .tru)⟩)], 65⟩
    let body : List Symbol := [.conj, .var ⟨64⟩, .conj, .var ⟨64⟩, .x 1]
    ∃ hw : t.isWellFounded = true, Ordered t.entries ∧
      (∀ v b, t.get? v = some b → 0 < b.count) ∧
      (∃ counts, Recount.Ends t (.start body) counts ∧ (t.counts == counts) = true) ∧
      ∀ v, t.count (.var v) = occ t hw body v := by
  intro t body
  have ho : Ordered t.entries := by
    unfold Ordered
    decide
  have hw : t.isWellFounded = true := by decide
  have hp : ∀ v b, t.get? v = some b → 0 < b.count := by
    intro v b hb
    have hall : ∀ e ∈ t.entries, 0 < e.2.count := by decide
    exact hall (v, b) (mem_of_lookup hb)
  have hb : t.isConsistentWith body = true := by decide
  obtain ⟨⟨counts, hends, heq⟩, hiff⟩ := isConsistentWith_exact ho hw hp body
  exact ⟨hw, ho, hp, ⟨counts, hends, heq ▸ hb⟩, hiff.mp hb⟩

end Bindings

end LawProof
