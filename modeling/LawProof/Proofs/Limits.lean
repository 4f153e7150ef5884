import LawProof.Counting
import LawProof.Proofs.Tracking

/-!
# Numbers, limits and words

Counted without a bound, a cascade is what `retain` and `release` do. Any other way of counting that
goes up and down as numbers do, as long as no count passes a limit, comes to the same where the
counts at the end are within the limit: a cascade goes only up or only down, so none in between is
above both ends. Words that have wrapped around still tell each count up to a multiple of their
size.
-/

namespace LawProof

namespace Bindings

/-! ## Without a bound -/

theorem countUp_exact (v : Var) (t : Bindings) :
    countUp .exact v t = pure (match t.get? v with
      | none => t.put v ⟨1, none⟩
      | some b => t.put v { b with count := b.count + 1 }) := by
  unfold countUp
  cases t.get? v <;> rfl

theorem countDown_exact (v : Var) (t : Bindings) :
    countDown .exact v t = pure (t.expand (.var v)) := by
  unfold countDown expand
  simp only [Symbol.var?]
  cases t.get? v with
  | none => rfl
  | some b =>
    show (if b.count - 1 = 0 then t.remove v else t.put v { b with count := b.count - 1 }) =
      t.dropOne v b
    unfold dropOne
    by_cases h : b.count ≤ 1
    · rw [if_pos h, if_pos (by omega)]
    · rw [if_neg h, if_neg (by omega)]

theorem cascade_countUp (n : Nat) (s : Symbol) (t : Bindings) :
    cascade (countUp .exact) n s t = pure (retainWithin n s t) := by
  induction n generalizing s t with
  | zero => rfl
  | succ n ih =>
    cases s with
    | var v =>
      simp only [cascade, retainWithin, operandsOf, definition?, countUp_exact, pure_bind, ih,
        List.foldlM_pure]
      cases t.get? v with
      | none => rfl
      | some b => cases hd : b.definition <;> simp [hd]
    | _ => rfl

theorem cascade_countDown (n : Nat) (s : Symbol) (t : Bindings) :
    cascade (countDown .exact) n s t = pure (releaseWithin n s t) := by
  induction n generalizing s t with
  | zero => rfl
  | succ n ih =>
    cases s with
    | var v =>
      simp only [cascade, releaseWithin, operandsOf, definition?, countDown_exact, expand,
        Symbol.var?, pure_bind, ih, List.foldlM_pure]
      cases t.get? v with
      | none => rfl
      | some b => cases hd : b.definition <;> simp [hd]
    | _ => rfl

theorem retainBy_exact (t : Bindings) (s : Symbol) : t.retainBy .exact s = t.retain s :=
  cascade_countUp t.chainBound s t

theorem releaseBy_exact (t : Bindings) (s : Symbol) : t.releaseBy .exact s = t.release s :=
  cascade_countDown t.chainBound s t

theorem expandBy_exact (t : Bindings) (s : Symbol) : t.expandBy .exact s = t.expand s := by
  unfold expandBy
  cases hs : s.var? with
  | none =>
    unfold expand
    rw [hs]
    rfl
  | some v =>
    obtain rfl := Symbol.eq_var_of_var? hs
    exact countDown_exact v t

theorem releaseBy_word (t : Bindings) (s : Symbol) : t.releaseBy .word s = t.release s :=
  releaseBy_exact t s

theorem expandBy_word (t : Bindings) (s : Symbol) : t.expandBy .word s = t.expand s :=
  expandBy_exact t s

/-! ## Definitions -/

/-- Every definition in the one table is in the other. -/
def Within (t' t : Bindings) : Prop := ∀ v d, t'.definition? v = some d → t.definition? v = some d

theorem within_refl (t : Bindings) : t.Within t := fun _ _ => id

theorem Within.trans {t t' t'' : Bindings} (h : t''.Within t') (h' : t'.Within t) :
    t''.Within t := fun v d hd => h' v d (h v d hd)

theorem Within.simple {t t' : Bindings} (h : t'.Within t) (ht : t.Simple) : t'.Simple :=
  fun v d hd => ht v d (h v d hd)

theorem within_put {t : Bindings} {v : Var} {b : Binding}
    (h : ∀ d, b.definition = some d → t.definition? v = some d) : (t.put v b).Within t := by
  intro w d hd
  unfold definition? at hd
  rw [get?_put] at hd
  split at hd
  · rename_i hw
    exact hw ▸ h d hd
  · exact hd

theorem within_remove (t : Bindings) (v : Var) : (t.remove v).Within t := by
  intro w d hd
  unfold definition? at hd
  rw [get?_remove] at hd
  split at hd
  · simp at hd
  · exact hd

theorem within_countUp (c : Counting Id) (v : Var) (t : Bindings) : Within (countUp c v t) t := by
  refine within_put fun d hd => ?_
  unfold definition?
  cases hv : t.get? v with
  | none => simp [hv] at hd
  | some b => simpa [hv] using hd

theorem within_countDown (c : Counting Id) (v : Var) (t : Bindings) :
    Within (countDown c v t) t := by
  unfold countDown
  cases hv : t.get? v with
  | none => exact t.within_refl
  | some b =>
    have hcount : ∀ n : Nat,
        Within (if n = 0 then t.remove v else t.put v { b with count := n }) t := by
      intro n
      split
      · exact t.within_remove v
      · refine within_put fun d hd => ?_
        rw [definition?_of_get? hv]
        exact hd
    exact hcount (c.down v b.count)

theorem foldlM_id {α : Type} (g : Bindings → α → Id Bindings) (xs : List α) (t : Bindings) :
    xs.foldlM g t = xs.foldl (fun t x => g t x) t := List.foldlM_pure

theorem cascade_var (touch : Var → Bindings → Id Bindings) (n : Nat) (v : Var) (t : Bindings) :
    cascade touch (n + 1) (.var v) t =
      (t.operandsOf v).foldl (fun t s => cascade touch n s t) (touch v t) :=
  foldlM_id ..

theorem within_cascade {touch : Var → Bindings → Id Bindings}
    (h : ∀ v t, Within (touch v t) t) (n : Nat) (s : Symbol) (t : Bindings) :
    Within (cascade touch n s t) t := by
  induction n generalizing s t with
  | zero => exact t.within_refl
  | succ n ih =>
    cases s with
    | var v =>
      rw [cascade_var]
      exact List.foldlRecOn (motive := (Within · t)) _ _ (h v t) fun u hu s _ => (ih s u).trans hu
    | _ => exact t.within_refl

theorem within_retainBy (c : Counting Id) (t : Bindings) (s : Symbol) :
    Within (t.retainBy c s) t := within_cascade (within_countUp c) t.chainBound s t

theorem within_releaseBy (c : Counting Id) (t : Bindings) (s : Symbol) :
    Within (t.releaseBy c s) t := within_cascade (within_countDown c) t.chainBound s t

theorem within_retain (t : Bindings) (s : Symbol) : (t.retain s).Within t := by
  rw [← retainBy_exact]
  exact within_retainBy .exact t s

theorem within_release (t : Bindings) (s : Symbol) : (t.release s).Within t := by
  rw [← releaseBy_exact]
  exact within_releaseBy .exact t s

theorem within_expandBy (c : Counting Id) (t : Bindings) (s : Symbol) :
    Within (t.expandBy c s) t := by
  unfold expandBy
  split
  · exact t.within_refl
  · exact within_countDown c _ t

theorem within_expand (t : Bindings) (s : Symbol) : (t.expand s).Within t := by
  rw [← expandBy_exact]
  exact within_expandBy .exact t s

/-! ## Up and down -/

/-- No count is above the limit. -/
def AtMost (limit : Nat) (t : Bindings) : Prop := ∀ v, t.total v ≤ limit

/-- No count is lower in the second table than in the first. -/
def Grows (t u : Bindings) : Prop := ∀ v, t.total v ≤ u.total v

/-- An entry that is there has an occurrence. -/
def Positive (t : Bindings) : Prop := ∀ v b, t.get? v = some b → 0 < b.count

theorem AtMost.mono {limit more : Nat} {t : Bindings} (h : t.AtMost limit) (hle : limit ≤ more) :
    t.AtMost more := fun v => Nat.le_trans (h v) hle

theorem Grows.atMost {limit : Nat} {t u : Bindings} (h : t.Grows u) (hu : u.AtMost limit) :
    t.AtMost limit := fun v => Nat.le_trans (h v) (hu v)

theorem Grows.trans {t u w : Bindings} (h : t.Grows u) (h' : u.Grows w) : t.Grows w :=
  fun v => Nat.le_trans (h v) (h' v)

theorem grows_refl (t : Bindings) : t.Grows t := fun _ => Nat.le_refl _

theorem grows_foldl {α : Type} {f : Bindings → α → Bindings} (hf : ∀ t x, Grows t (f t x))
    (xs : List α) (t : Bindings) : t.Grows (xs.foldl f t) := by
  induction xs generalizing t with
  | nil => exact t.grows_refl
  | cons x xs ih => exact (hf t x).trans (ih (f t x))

theorem grows_retainWithin (n : Nat) (t : Bindings) (s : Symbol) :
    t.Grows (retainWithin n s t) := by
  intro v
  cases hs : s.var? with
  | none =>
    exact Nat.le_of_eq (by rw [retainWithin_of_var?_eq_none hs])
  | some w =>
    obtain rfl := Symbol.eq_var_of_var? hs
    have hraised := (raised_retainAll n [w] t).total v
    exact Nat.le_trans (Nat.le_add_right ..) (Nat.le_of_eq hraised.symm)

theorem grows_retain (t : Bindings) (s : Symbol) : t.Grows (t.retain s) :=
  grows_retainWithin t.chainBound t s

theorem total_release_le (t : Bindings) (s : Symbol) (v : Var) :
    (t.release s).total v ≤ t.total v := by
  refine releaseWithin_preserves (P := fun u => u.total v ≤ t.total v) ?_ t.chainBound s
    (Nat.le_refl _)
  intro u w b hw hle
  refine Nat.le_trans ?_ hle
  rw [total_eq, total_eq, get?_dropOne hw, lower_count]
  exact Nat.sub_le ..

theorem total_put_self (t : Bindings) (v : Var) (b : Binding) : (t.put v b).total v = b.count :=
  total_of_get? (by rw [get?_put, if_pos rfl])

theorem Positive.dropOne {t : Bindings} (h : t.Positive) {v : Var} {b : Binding}
    (hv : t.get? v = some b) : (t.dropOne v b).Positive := by
  intro w c hc
  rw [get?_dropOne hv] at hc
  obtain ⟨a, ha, -, hpos⟩ := lower_eq_some hc
  exact hpos (h w a ha)

theorem Positive.releaseWithin {t : Bindings} (h : t.Positive) (n : Nat) (s : Symbol) :
    (releaseWithin n s t).Positive :=
  releaseWithin_preserves (fun _ _ _ hv ht => ht.dropOne hv) n s h

theorem Positive.expand {t : Bindings} (h : t.Positive) (s : Symbol) : (t.expand s).Positive := by
  unfold Bindings.expand
  split
  · exact h
  · split
    · exact h
    · rename_i hv
      exact h.dropOne hv

theorem Positive.define {t : Bindings} (h : t.Positive) (d : Definition) :
    (t.define d).2.Positive := by
  intro v b hb
  unfold Bindings.define at hb
  simp only [fresh, get?_put] at hb
  split at hb
  · cases hb
    exact Nat.one_pos
  · exact h v b hb

end Bindings

/-! ## Up to a limit -/

/-- Counts go up and down as numbers do, as long as they do not pass the limit. -/
structure Counting.ExactUpTo {m : Type → Type} [Monad m] (c : Counting m) (limit : Nat) :
    Prop where
  up : ∀ v n, n < limit → c.up v n = pure (n + 1)
  down : ∀ v n, 0 < n → c.down v n = pure (n - 1)

theorem Counting.exactUpTo_word : Counting.word.ExactUpTo (wordSize - 1) where
  up v n h := by
    have hlt : n + 1 < wordSize := by
      unfold wordSize at *
      omega
    exact Nat.mod_eq_of_lt hlt
  down _ _ _ := rfl

namespace Bindings

section

variable {m : Type → Type} [Monad m] [LawfulMonad m] {c : Counting m} {limit : Nat}

theorem foldlM_eq_pure {α : Type} {P : Bindings → List α → Prop} {f : Bindings → α → Bindings}
    {g : Bindings → α → m Bindings}
    (hstep : ∀ t x xs, P t (x :: xs) → g t x = pure (f t x) ∧ P (f t x) xs) {xs : List α}
    {t : Bindings} (h : P t xs) : xs.foldlM g t = pure (xs.foldl f t) := by
  induction xs generalizing t with
  | nil => rfl
  | cons x xs ih =>
    obtain ⟨hx, hxs⟩ := hstep t x xs h
    rw [List.foldlM_cons, hx, pure_bind, List.foldl_cons]
    exact ih hxs

theorem foldlM_eq_pure_of_grows {α : Type} {f : Bindings → α → Bindings}
    {g : Bindings → α → m Bindings} (hf : ∀ t x, Grows t (f t x))
    (hg : ∀ t x, (f t x).AtMost limit → g t x = pure (f t x)) {xs : List α} {t : Bindings}
    (h : (xs.foldl f t).AtMost limit) : xs.foldlM g t = pure (xs.foldl f t) := by
  refine foldlM_eq_pure (P := fun t xs => (xs.foldl f t).AtMost limit) ?_ h
  intro t x xs hxs
  exact ⟨hg t x ((grows_foldl hf xs (f t x)).atMost hxs), hxs⟩

theorem countUp_eq (hc : c.ExactUpTo limit) {t : Bindings} {v : Var} {b : Binding}
    (hb : (t.get? v).getD ⟨0, none⟩ = b)
    (h : (t.put v { b with count := b.count + 1 }).AtMost limit) :
    countUp c v t = pure (t.put v { b with count := b.count + 1 }) := by
  have hv := h v
  rw [total_put_self] at hv
  simp only [countUp, hb, hc.up v b.count hv, pure_bind]

theorem cascade_countUp_eq (hc : c.ExactUpTo limit) {n : Nat} {s : Symbol} {t : Bindings}
    (h : (retainWithin n s t).AtMost limit) :
    cascade (countUp c) n s t = pure (retainWithin n s t) := by
  induction n generalizing s t with
  | zero => rfl
  | succ n ih =>
    cases s with
    | var v =>
      simp only [retainWithin, cascade, operandsOf, definition?] at h ⊢
      cases hv : t.get? v with
      | none =>
        rw [hv] at h
        rw [countUp_eq hc (b := ⟨0, none⟩) (by rw [hv]; rfl) h, pure_bind]
        rfl
      | some b =>
        rw [hv] at h
        have hb : (t.get? v).getD ⟨0, none⟩ = b := by rw [hv, Option.getD_some]
        cases hd : b.definition with
        | none =>
          simp only [hd] at h
          simp only [Option.bind_some, hd]
          rw [countUp_eq hc hb (by rw [hd]; exact h), pure_bind, hd]
          rfl
        | some d =>
          simp only [hd] at h
          -- The count of the name goes up first, and none comes down behind it.
          have hgrows : ∀ t s, Grows t (retainWithin n s t) := fun t s => grows_retainWithin n t s
          have hname := countUp_eq hc hb
            (by rw [hd]; exact (grows_foldl hgrows d.operands _).atMost h)
          simp only [Option.bind_some, hd]
          rw [hname, pure_bind, hd]
          exact foldlM_eq_pure_of_grows hgrows (fun t s hs => ih hs) h
    | _ => rfl

theorem retainBy_eq (hc : c.ExactUpTo limit) {t : Bindings} {s : Symbol}
    (h : (t.retain s).AtMost limit) : t.retainBy c s = pure (t.retain s) :=
  cascade_countUp_eq hc h

theorem Positive.countDown_eq (hc : c.ExactUpTo limit) {t : Bindings} (h : t.Positive) (v : Var) :
    countDown c v t = pure (t.expand (.var v)) := by
  rw [← Id.run_pure (t.expand (.var v)), ← countDown_exact]
  unfold countDown
  cases hv : t.get? v with
  | none => rfl
  | some b =>
    simp only [hc.down v b.count (h v b hv), pure_bind]
    rfl

theorem Positive.cascade_countDown_eq (hc : c.ExactUpTo limit) {t : Bindings} (h : t.Positive)
    (n : Nat) (s : Symbol) : cascade (countDown c) n s t = pure (Bindings.releaseWithin n s t) := by
  induction n generalizing s t with
  | zero => rfl
  | succ n ih =>
    cases s with
    | var v =>
      simp only [cascade, Bindings.releaseWithin, operandsOf, definition?, h.countDown_eq hc,
        Bindings.expand, Symbol.var?, pure_bind]
      cases hv : t.get? v with
      | none => rfl
      | some b =>
        cases hd : b.definition with
        | none => simp [hd]
        | some d =>
          simp only [Option.bind_some, hd]
          exact foldlM_eq_pure (P := fun t _ => t.Positive)
            (fun t s _ ht => ⟨ih ht s, ht.releaseWithin n s⟩) (h.dropOne hv)
    | _ => rfl

theorem Positive.releaseBy_eq (hc : c.ExactUpTo limit) {t : Bindings} (h : t.Positive)
    (s : Symbol) : t.releaseBy c s = pure (t.release s) :=
  h.cascade_countDown_eq hc t.chainBound s

theorem Positive.expandBy_eq (hc : c.ExactUpTo limit) {t : Bindings} (h : t.Positive)
    (s : Symbol) : t.expandBy c s = pure (t.expand s) := by
  unfold expandBy
  cases hs : s.var? with
  | none =>
    unfold Bindings.expand
    rw [hs]
  | some v =>
    obtain rfl := Symbol.eq_var_of_var? hs
    exact h.countDown_eq hc v

theorem ofBodyBy_eq (hc : c.ExactUpTo limit) {body : List Symbol}
    (h : (ofBody body).AtMost limit) : ofBodyBy c body = pure (ofBody body) :=
  foldlM_eq_pure_of_grows grows_retain (fun _ _ hs => retainBy_eq hc hs) h

end

end Bindings

/-! ## Words that wrap around -/

/-- The binding with its count in a word. -/
def Binding.inWord (b : Binding) : Binding := { b with count := b.count % Counting.wordSize }

namespace Bindings

/-- The table with all counts in words. -/
def inWords (t : Bindings) : Bindings := t.map Binding.inWord

theorem get?_inWords (t : Bindings) (v : Var) :
    t.inWords.get? v = (t.get? v).map Binding.inWord := t.get?_map Binding.inWord v

theorem definition?_inWords (t : Bindings) (v : Var) :
    t.inWords.definition? v = t.definition? v := by
  unfold definition?
  rw [get?_inWords]
  cases t.get? v <;> rfl

theorem total_inWords (t : Bindings) (v : Var) :
    t.inWords.total v = t.total v % Counting.wordSize := by
  rw [total_eq, total_eq, get?_inWords]
  cases t.get? v <;> rfl

theorem put_inWords (t : Bindings) (v : Var) (b : Binding) :
    (t.put v b).inWords = t.inWords.put v (Binding.inWord b) := t.put_map Binding.inWord v b

theorem countUp_inWords (v : Var) (t : Bindings) :
    countUp .word v t.inWords = inWords (countUp .exact v t) := by
  have hcount : ∀ b : Binding, ({ Binding.inWord b with
      count := ((Binding.inWord b).count + 1) % Counting.wordSize } : Binding) =
      Binding.inWord { b with count := b.count + 1 } := by
    intro b
    simp [Binding.inWord]
  have hget : (t.inWords.get? v).getD ⟨0, none⟩ =
      Binding.inWord ((t.get? v).getD ⟨0, none⟩) := by
    rw [get?_inWords]
    cases t.get? v <;> rfl
  show t.inWords.put v { (t.inWords.get? v).getD ⟨0, none⟩ with
    count := (((t.inWords.get? v).getD ⟨0, none⟩).count + 1) % Counting.wordSize } = _
  rw [hget, hcount, ← put_inWords]
  rfl

/-- Counting up in words is counting up, and then taking the words. -/
theorem cascade_inWords (n : Nat) (s : Symbol) (t : Bindings) :
    cascade (countUp .word) n s t.inWords = inWords (cascade (countUp .exact) n s t) := by
  induction n generalizing s t with
  | zero => rfl
  | succ n ih =>
    cases s with
    | var v =>
      have hoperands : t.inWords.operandsOf v = t.operandsOf v := by
        unfold operandsOf
        rw [definition?_inWords]
      have hfold : ∀ (symbols : List Symbol) (u : Bindings),
          symbols.foldlM (fun t s => cascade (countUp .word) n s t) u.inWords =
            inWords (symbols.foldlM (fun t s => cascade (countUp .exact) n s t) u) := by
        intro symbols
        induction symbols with
        | nil => exact fun _ => rfl
        | cons s rest ihrest =>
          intro u
          show (rest.foldlM _ (cascade (countUp .word) n s u.inWords) : Id Bindings) = _
          rw [ih]
          exact ihrest _
      show ((t.inWords.operandsOf v).foldlM _ (countUp .word v t.inWords) : Id Bindings) = _
      rw [hoperands, countUp_inWords]
      exact hfold _ _
    | _ => rfl

theorem retainBy_inWords (t : Bindings) (s : Symbol) :
    t.inWords.retainBy .word s = (t.retain s).inWords := by
  have hbound : t.inWords.chainBound = t.chainBound := t.chainBound_map Binding.inWord
  unfold retainBy
  rw [hbound, cascade_inWords, cascade_countUp]
  rfl

theorem AtMost.inWords_eq {t : Bindings} (h : t.AtMost (Counting.wordSize - 1))
    (ho : Ordered t.entries) : t.inWords = t := by
  have hentry : ∀ e ∈ t.entries, (e.1, Binding.inWord e.2) = e := by
    rintro ⟨v, b⟩ he
    have hle := h v
    rw [total_of_get? ((mem_entries_iff ho).mp he)] at hle
    have hlt : b.count < Counting.wordSize := by
      unfold Counting.wordSize at *
      omega
    unfold Binding.inWord
    rw [Nat.mod_eq_of_lt hlt]
  unfold inWords map
  rw [List.map_congr_left hentry, List.map_id']

theorem inWords_inWords (t : Bindings) : t.inWords.inWords = t.inWords := by
  simp [inWords, map, Binding.inWord, Function.comp_def]

theorem dropOne_inWords {t : Bindings} (h : t.inWords = t) {v : Var} {b : Binding}
    (hv : t.get? v = some b) : (t.dropOne v b).inWords = t.dropOne v b := by
  have hb : Binding.inWord b = b := by
    have hget := t.get?_inWords v
    rw [h, hv] at hget
    exact (Option.some.inj hget).symm
  have hcount : b.count % Counting.wordSize = b.count := congrArg Binding.count hb
  have hless : (b.count - 1) % Counting.wordSize = b.count - 1 := by
    unfold Counting.wordSize at *
    omega
  unfold dropOne
  split
  · exact (t.remove_map Binding.inWord v).trans (congrArg (remove · v) h)
  · rw [put_inWords, h, Binding.inWord, hless]

theorem release_inWords {t : Bindings} (h : t.inWords = t) (s : Symbol) :
    (t.release s).inWords = t.release s :=
  releaseWithin_preserves (P := fun t => t.inWords = t) (fun _ _ _ hv ht => dropOne_inWords ht hv)
    t.chainBound s h

theorem expand_inWords {t : Bindings} (h : t.inWords = t) (s : Symbol) :
    (t.expand s).inWords = t.expand s := by
  unfold expand
  split
  · exact h
  · split
    · exact h
    · rename_i hv
      exact dropOne_inWords h hv

theorem define_inWords {t : Bindings} (h : t.inWords = t) (d : Definition) :
    (t.define d).2.inWords = (t.define d).2 := by
  have hfresh : t.fresh.2.inWords = t.fresh.2 := by
    unfold inWords map at h ⊢
    simp only [fresh, mk.injEq, and_true]
    exact congrArg Bindings.entries h
  unfold define
  simp only [put_inWords, hfresh]
  rfl

end Bindings

end LawProof
