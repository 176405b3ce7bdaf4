import Mathlib.Data.BitVec
import Mathlib.Data.List.Range
import Mathlib.Logic.Function.Basic

namespace Abydos.Cxxabi

abbrev Ptr := BitVec 64

def ATEXIT_MAX_FUNCS : Nat := 1024

structure AtexitFuncEntry where
  destructorFunc : Ptr
  objPtr : Ptr
  dsoHandle : Ptr

structure Atexit where
  funcs : Nat → AtexitFuncEntry
  funcCount : Nat
  room : funcCount ≤ ATEXIT_MAX_FUNCS

def Atexit.start : Atexit := ⟨fun _ => ⟨0, 0, 0⟩, 0, Nat.zero_le _⟩

def cxaAtexit (f objptr dso : Ptr) (t : Atexit) : Int × Atexit :=
  if h : ATEXIT_MAX_FUNCS ≤ t.funcCount then (-1, t)
  else (0, ⟨Function.update t.funcs t.funcCount ⟨f, objptr, dso⟩, t.funcCount + 1,
    Nat.not_le.mp h⟩)

structure Call where
  index : Nat
  destructorFunc : Ptr
  objPtr : Ptr
  deriving DecidableEq

def finalizeAll (funcs : Nat → AtexitFuncEntry) : Nat → List Call
  | 0 => []
  | i + 1 =>
    if (funcs i).destructorFunc ≠ 0 then
      ⟨i, (funcs i).destructorFunc, (funcs i).objPtr⟩ :: finalizeAll funcs i
    else finalizeAll funcs i

def finalizeFunc (f : Ptr) :
    Nat → (Nat → AtexitFuncEntry) → List Call × (Nat → AtexitFuncEntry)
  | 0, funcs => ([], funcs)
  | i + 1, funcs =>
    if (funcs i).destructorFunc = f then
      let (calls, funcs') :=
        finalizeFunc f i (Function.update funcs i { funcs i with destructorFunc := 0 })
      (⟨i, (funcs i).destructorFunc, (funcs i).objPtr⟩ :: calls, funcs')
    else finalizeFunc f i funcs

def cxaFinalize (f : Ptr) (t : Atexit) : List Call × Atexit :=
  if f = 0 then (finalizeAll t.funcs t.funcCount, t)
  else
    let (calls, funcs) := finalizeFunc f t.funcCount t.funcs
    (calls, { t with funcs })

inductive Op
  | atexit (f objptr dso : Ptr)
  | finalize (f : Ptr)
  deriving DecidableEq

structure Run where
  table : Atexit
  registered : List (Ptr × Ptr)
  ran : List Nat

def Run.start : Run := ⟨.start, [], []⟩

def Run.step (r : Run) : Op → Run
  | .atexit f objptr dso =>
    let (rc, table) := cxaAtexit f objptr dso r.table
    ⟨table, if rc = 0 then r.registered ++ [(f, objptr)] else r.registered, r.ran⟩
  | .finalize f =>
    let (calls, table) := cxaFinalize f r.table
    ⟨table, r.registered, r.ran ++ calls.map Call.index⟩

def Covers (f g : Ptr) : Prop := g ≠ 0 ∧ (f = 0 ∨ g = f)

instance : Decidable (Covers f g) := inferInstanceAs (Decidable (_ ∧ _))

def Run.due (r : Run) (f : Ptr) : List Call :=
  (List.range r.registered.length).reverse.filterMap fun i =>
    r.registered[i]?.bind fun p =>
      if i ∉ r.ran ∧ Covers f p.1 then some ⟨i, p.1, p.2⟩ else none

/-- Every finalization calls what is due, and leaves nothing due if it is one of everything. -/
def Orderly : List Op → Run → Prop
  | [], _ => True
  | .atexit f objptr dso :: ops, r => Orderly ops (r.step (.atexit f objptr dso))
  | .finalize f :: ops, r =>
    ((cxaFinalize f r.table).1 = r.due f ∧ (f = 0 → (r.step (.finalize f)).due 0 = [])) ∧
      Orderly ops (r.step (.finalize f))

/-- The functions of the entries that are set: those not called yet, and those that a call with
`NULL` has called. -/
structure Ledger where
  fresh : List Ptr
  spent : List Ptr
  funcCount : Nat

def Ledger.start : Ledger := ⟨[], [], 0⟩

def Ledger.step (l : Ledger) : Op → Ledger
  | .atexit f _ _ =>
    if ATEXIT_MAX_FUNCS ≤ l.funcCount then l
    else { l with fresh := l.fresh ++ [f], funcCount := l.funcCount + 1 }
  | .finalize f =>
    if f = 0 then { l with fresh := [], spent := l.spent ++ l.fresh }
    else { l with fresh := l.fresh.filter (· ≠ f), spent := l.spent.filter (· ≠ f) }

def NeverAgain : List Op → Ledger → Prop
  | [], _ => True
  | .atexit f objptr dso :: ops, l => NeverAgain ops (l.step (.atexit f objptr dso))
  | .finalize f :: ops, l =>
    (∀ g ∈ l.spent, ¬ Covers f g) ∧ NeverAgain ops (l.step (.finalize f))

section Finalize

variable {f : Ptr} {funcs : Nat → AtexitFuncEntry} {n i : Nat} {t : Atexit}

def covered (f : Ptr) (funcs : Nat → AtexitFuncEntry) (n : Nat) : List Call :=
  (List.range n).reverse.filterMap fun i =>
    if Covers f (funcs i).destructorFunc then
      some ⟨i, (funcs i).destructorFunc, (funcs i).objPtr⟩
    else none

theorem covered_succ (f : Ptr) (funcs : Nat → AtexitFuncEntry) (n : Nat) :
    covered f funcs (n + 1) = if Covers f (funcs n).destructorFunc then
      ⟨n, (funcs n).destructorFunc, (funcs n).objPtr⟩ :: covered f funcs n
    else covered f funcs n := by
  unfold covered
  rw [List.range_succ, List.reverse_append, List.reverse_singleton, List.singleton_append,
    List.filterMap_cons]
  by_cases h : Covers f (funcs n).destructorFunc
  · rw [if_pos h, if_pos h]
  · rw [if_neg h, if_neg h]

theorem covered_congr {funcs' : Nat → AtexitFuncEntry} (h : ∀ i < n, funcs i = funcs' i) :
    covered f funcs n = covered f funcs' n := by
  refine List.filterMap_congr fun i hi => ?_
  rw [h i (List.mem_range.mp (List.mem_reverse.mp hi))]

theorem finalizeAll_eq : finalizeAll funcs n = covered 0 funcs n := by
  induction n with
  | zero => rfl
  | succ n ih =>
    have hcov : Covers 0 (funcs n).destructorFunc ↔ (funcs n).destructorFunc ≠ 0 :=
      and_iff_left (.inl rfl)
    rw [finalizeAll, covered_succ, ih]
    simp only [hcov]

theorem covers_iff (hf : f ≠ 0) (g : Ptr) : Covers f g ↔ g = f := by
  constructor
  · rintro ⟨-, h⟩
    exact h.resolve_left hf
  · rintro rfl
    exact ⟨hf, .inr rfl⟩

theorem finalizeFunc_eq (hf : f ≠ 0) (n : Nat) (funcs : Nat → AtexitFuncEntry) :
    finalizeFunc f n funcs = (covered f funcs n, fun i =>
      if i < n ∧ (funcs i).destructorFunc = f then { funcs i with destructorFunc := 0 }
      else funcs i) := by
  induction n generalizing funcs with
  | zero =>
    refine Prod.ext rfl (funext fun i => ?_)
    dsimp only
    rw [if_neg fun h => absurd h.1 (Nat.not_lt_zero i)]
    rfl
  | succ n ih =>
    rw [finalizeFunc, covered_succ]
    by_cases h : (funcs n).destructorFunc = f
    · rw [if_pos h, if_pos ((covers_iff hf _).mpr h), ih]
      refine Prod.ext ?_ (funext fun i => ?_)
      · refine congrArg (List.cons _) (covered_congr fun i hi => ?_)
        rw [Function.update_of_ne (Nat.ne_of_lt hi)]
      · dsimp only
        by_cases hi : i = n
        · subst hi
          rw [Function.update_self, if_neg fun h' => absurd h'.1 (Nat.lt_irrefl i),
            if_pos ⟨Nat.lt_succ_self i, h⟩]
        · rw [Function.update_of_ne hi]
          have hlt : i < n + 1 ↔ i < n := by omega
          simp only [hlt]
    · rw [if_neg h, if_neg fun h' => h ((covers_iff hf _).mp h'), ih]
      refine Prod.ext rfl (funext fun i => ?_)
      dsimp only
      by_cases hi : i = n
      · subst hi
        rw [if_neg fun h' => absurd h'.1 (Nat.lt_irrefl i), if_neg fun h' => h h'.2]
      · have hlt : i < n + 1 ↔ i < n := by omega
        simp only [hlt]

theorem cxaFinalize_calls (f : Ptr) (t : Atexit) :
    (cxaFinalize f t).1 = covered f t.funcs t.funcCount := by
  unfold cxaFinalize
  by_cases hf : f = 0
  · subst hf
    rw [if_pos rfl]
    exact finalizeAll_eq
  · rw [if_neg hf, finalizeFunc_eq hf]

@[simp] theorem cxaFinalize_funcCount (f : Ptr) (t : Atexit) :
    (cxaFinalize f t).2.funcCount = t.funcCount := by
  unfold cxaFinalize
  split <;> rfl

theorem cxaFinalize_funcs (f : Ptr) (hi : i < t.funcCount) :
    (cxaFinalize f t).2.funcs i = if f ≠ 0 ∧ (t.funcs i).destructorFunc = f then
      { t.funcs i with destructorFunc := 0 } else t.funcs i := by
  unfold cxaFinalize
  by_cases hf : f = 0
  · rw [if_pos hf, if_neg fun h => h.1 hf]
  · rw [if_neg hf, finalizeFunc_eq hf]
    dsimp only
    simp only [hi, true_and, ne_eq, hf, not_false_eq_true]

theorem mem_covered {c : Call} : c ∈ covered f funcs n ↔ c.index < n ∧
    Covers f (funcs c.index).destructorFunc ∧
    c = ⟨c.index, (funcs c.index).destructorFunc, (funcs c.index).objPtr⟩ := by
  unfold covered
  simp only [List.mem_filterMap, List.mem_reverse, List.mem_range]
  constructor
  · rintro ⟨i, hi, heq⟩
    split at heq
    · rename_i hcov
      cases heq
      exact ⟨hi, hcov, rfl⟩
    · cases heq
  · rintro ⟨hi, hcov, heq⟩
    exact ⟨c.index, hi, by rw [if_pos hcov, ← heq]⟩

theorem covered_index (f : Ptr) (funcs : Nat → AtexitFuncEntry) (n : Nat) :
    (covered f funcs n).map Call.index =
      (List.range n).reverse.filter fun i => Covers f (funcs i).destructorFunc := by
  induction n with
  | zero => rfl
  | succ n ih =>
    rw [covered_succ, List.range_succ, List.reverse_append, List.reverse_singleton,
      List.singleton_append, List.filter_cons]
    by_cases h : Covers f (funcs n).destructorFunc
    · rw [if_pos h, if_pos (decide_eq_true h), List.map_cons, ih]
    · rw [if_neg h, if_neg fun h' => h (of_decide_eq_true h'), ih]

end Finalize

section Run

variable {r : Run} {l : Ledger} {f : Ptr} {ops : List Op} {i : Nat}

structure Run.Valid (r : Run) : Prop where
  length : r.registered.length = r.table.funcCount
  entry : ∀ i p, r.registered[i]? = some p → p.1 ≠ 0 ∧ (r.table.funcs i).objPtr = p.2 ∧
    ((r.table.funcs i).destructorFunc = p.1 ∨
      (r.table.funcs i).destructorFunc = 0 ∧ i ∈ r.ran)
  ran_lt : ∀ i ∈ r.ran, i < r.table.funcCount

structure Ledger.Matches (l : Ledger) (r : Run) : Prop where
  funcCount : l.funcCount = r.table.funcCount
  fresh : ∀ g, g ∈ l.fresh ↔ g ≠ 0 ∧
    ∃ i < r.table.funcCount, (r.table.funcs i).destructorFunc = g ∧ i ∉ r.ran
  spent : ∀ g, g ∈ l.spent ↔ g ≠ 0 ∧
    ∃ i < r.table.funcCount, (r.table.funcs i).destructorFunc = g ∧ i ∈ r.ran

theorem step_finalize (r : Run) (f : Ptr) : r.step (.finalize f) =
    ⟨(cxaFinalize f r.table).2, r.registered,
      r.ran ++ (covered f r.table.funcs r.table.funcCount).map Call.index⟩ := by
  rw [← cxaFinalize_calls]
  rfl

theorem mem_ran_finalize : i ∈ (r.step (.finalize f)).ran ↔
    i ∈ r.ran ∨ i < r.table.funcCount ∧ Covers f (r.table.funcs i).destructorFunc := by
  rw [step_finalize, List.mem_append, covered_index, List.mem_filter, List.mem_reverse,
    List.mem_range, decide_eq_true_iff]

theorem step_atexit_full (f objptr dso : Ptr) (h : ATEXIT_MAX_FUNCS ≤ r.table.funcCount) :
    r.step (.atexit f objptr dso) = r := by
  rw [Run.step, cxaAtexit, dif_pos h]
  rfl

theorem step_atexit (f objptr dso : Ptr) (h : ¬ ATEXIT_MAX_FUNCS ≤ r.table.funcCount) :
    r.step (.atexit f objptr dso) =
      ⟨⟨Function.update r.table.funcs r.table.funcCount ⟨f, objptr, dso⟩, r.table.funcCount + 1,
        Nat.not_le.mp h⟩, r.registered ++ [(f, objptr)], r.ran⟩ := by
  rw [Run.step, cxaAtexit, dif_neg h]
  rfl

theorem Run.Valid.getElem? (h : r.Valid) (hi : i < r.table.funcCount) :
    ∃ p, r.registered[i]? = some p :=
  ⟨_, List.getElem?_eq_getElem (h.length ▸ hi)⟩

theorem Run.Valid.atexit (h : r.Valid) (hf : f ≠ 0) (objptr dso : Ptr) :
    (r.step (.atexit f objptr dso)).Valid := by
  by_cases hfull : ATEXIT_MAX_FUNCS ≤ r.table.funcCount
  · rw [step_atexit_full f objptr dso hfull]
    exact h
  · rw [step_atexit f objptr dso hfull]
    refine ⟨?_, fun i p hp => ?_, fun i hi => Nat.lt_succ_of_lt (h.ran_lt i hi)⟩
    · rw [List.length_append, h.length]
      rfl
    · dsimp only at hp ⊢
      rcases Nat.lt_or_ge i r.registered.length with hi | hi
      · rw [List.getElem?_append_left hi] at hp
        rw [Function.update_of_ne (Nat.ne_of_lt (h.length ▸ hi))]
        exact h.entry i p hp
      · have hi' := (List.getElem?_eq_some_iff.mp hp).1
        rw [List.length_append, List.length_singleton] at hi'
        have heq : i = r.table.funcCount := by
          have hlen := h.length
          omega
        rw [← h.length] at heq
        rw [heq, List.getElem?_concat_length] at hp
        cases hp
        rw [heq, h.length, Function.update_self]
        exact ⟨hf, rfl, .inl rfl⟩

theorem Run.Valid.finalize (h : r.Valid) (f : Ptr) : (r.step (.finalize f)).Valid := by
  refine ⟨?_, fun i p hp => ?_, fun i hi => ?_⟩
  · rw [step_finalize]
    exact h.length.trans (cxaFinalize_funcCount f r.table).symm
  · have hi : i < r.table.funcCount := h.length ▸ (List.getElem?_eq_some_iff.mp hp).1
    obtain ⟨hp₁, hobj, hfunc⟩ := h.entry i p hp
    rw [mem_ran_finalize, step_finalize]
    dsimp only
    rw [cxaFinalize_funcs f hi]
    by_cases hclear : f ≠ 0 ∧ (r.table.funcs i).destructorFunc = f
    · rw [if_pos hclear]
      exact ⟨hp₁, hobj, .inr ⟨rfl, .inr ⟨hi, (covers_iff hclear.1 _).mpr hclear.2⟩⟩⟩
    · rw [if_neg hclear]
      exact ⟨hp₁, hobj, hfunc.imp_right fun ⟨hz, hran⟩ => ⟨hz, .inl hran⟩⟩
  · have hlt : i < r.table.funcCount := (mem_ran_finalize.mp hi).elim (h.ran_lt i) fun hc => hc.1
    rw [step_finalize]
    exact hlt.trans_eq (cxaFinalize_funcCount f r.table).symm

theorem mem_due {c : Call} (hc : c ∈ r.due f) : c.index ∉ r.ran := by
  obtain ⟨i, -, heq⟩ := List.mem_filterMap.mp hc
  obtain ⟨p, -, hp⟩ := Option.bind_eq_some_iff.mp heq
  split at hp
  · rename_i h
    cases hp
    exact h.1
  · cases hp

theorem Run.Valid.calls_due (h : r.Valid) (f : Ptr) : (cxaFinalize f r.table).1 = r.due f ↔
    ∀ i < r.table.funcCount, Covers f (r.table.funcs i).destructorFunc → i ∉ r.ran := by
  rw [cxaFinalize_calls]
  constructor
  · intro heq i hi hcov
    have hc : ⟨i, (r.table.funcs i).destructorFunc, (r.table.funcs i).objPtr⟩ ∈ r.due f :=
      heq ▸ mem_covered.mpr ⟨hi, hcov, rfl⟩
    exact mem_due hc
  · intro hnew
    unfold covered Run.due
    rw [h.length]
    refine List.filterMap_congr fun i hi => ?_
    have hi := List.mem_range.mp (List.mem_reverse.mp hi)
    obtain ⟨p, hp⟩ := h.getElem? hi
    obtain ⟨hp₁, hobj, hfunc⟩ := h.entry i p hp
    rw [hp, Option.bind_some]
    rcases hfunc with hfunc | ⟨hzero, hran⟩
    · rw [hfunc, hobj]
      have hiff : Covers f p.1 ↔ i ∉ r.ran ∧ Covers f p.1 :=
        ⟨fun hc => ⟨hnew i hi (hfunc ▸ hc), hc⟩, fun hc => hc.2⟩
      exact if_congr hiff rfl rfl
    · rw [if_neg fun hc => hc.1 hzero, if_neg fun hc => hc.1 hran]

theorem Run.Valid.due_after (h : r.Valid) : (r.step (.finalize 0)).due 0 = [] := by
  refine List.filterMap_eq_nil_iff.mpr fun i hi => ?_
  have hi : i < r.table.funcCount := by
    rw [step_finalize] at hi
    exact h.length ▸ List.mem_range.mp (List.mem_reverse.mp hi)
  obtain ⟨p, hp⟩ := h.getElem? hi
  have hran : i ∈ (r.step (.finalize 0)).ran := by
    obtain ⟨hp₁, -, hfunc⟩ := h.entry i p hp
    rcases hfunc with hfunc | ⟨-, hran⟩
    · exact mem_ran_finalize.mpr (.inr ⟨hi, hfunc ▸ hp₁, .inl rfl⟩)
    · exact mem_ran_finalize.mpr (.inl hran)
  have hreg : (r.step (.finalize 0)).registered[i]? = some p := by
    rw [step_finalize]
    exact hp
  rw [hreg, Option.bind_some, if_neg fun hc => hc.1 hran]

theorem Ledger.Matches.atexit (h : l.Matches r) (hv : r.Valid) (hf : f ≠ 0) (objptr dso : Ptr) :
    (l.step (.atexit f objptr dso)).Matches (r.step (.atexit f objptr dso)) := by
  by_cases hfull : ATEXIT_MAX_FUNCS ≤ r.table.funcCount
  · rw [step_atexit_full f objptr dso hfull, Ledger.step, if_pos (h.funcCount ▸ hfull)]
    exact h
  · rw [step_atexit f objptr dso hfull, Ledger.step, if_neg (h.funcCount ▸ hfull)]
    have hold : ∀ {i}, i < r.table.funcCount →
        Function.update r.table.funcs r.table.funcCount ⟨f, objptr, dso⟩ i = r.table.funcs i :=
      fun hi => Function.update_of_ne (Nat.ne_of_lt hi) _ _
    have hran : r.table.funcCount ∉ r.ran := fun hc => Nat.lt_irrefl _ (hv.ran_lt _ hc)
    refine ⟨congrArg Nat.succ h.funcCount, fun g => ?_, fun g => ?_⟩
    · dsimp only
      rw [List.mem_append, List.mem_singleton, h.fresh]
      constructor
      · rintro (⟨hg, i, hi, hfunc, hnew⟩ | rfl)
        · exact ⟨hg, i, Nat.lt_succ_of_lt hi, hold hi ▸ hfunc, hnew⟩
        · exact ⟨hf, _, Nat.lt_succ_self _, by rw [Function.update_self], hran⟩
      · rintro ⟨hg, i, hi, hfunc, hnew⟩
        rcases Nat.lt_succ_iff_lt_or_eq.mp hi with hi | rfl
        · rw [hold hi] at hfunc
          exact .inl ⟨hg, i, hi, hfunc, hnew⟩
        · rw [Function.update_self] at hfunc
          exact .inr hfunc.symm
    · dsimp only
      rw [h.spent]
      constructor
      · rintro ⟨hg, i, hi, hfunc, hi'⟩
        exact ⟨hg, i, Nat.lt_succ_of_lt hi, hold hi ▸ hfunc, hi'⟩
      · rintro ⟨hg, i, -, hfunc, hi'⟩
        have hi := hv.ran_lt i hi'
        rw [hold hi] at hfunc
        exact ⟨hg, i, hi, hfunc, hi'⟩

theorem step_finalize_funcCount (f : Ptr) :
    (r.step (.finalize f)).table.funcCount = r.table.funcCount := by
  rw [step_finalize]
  exact cxaFinalize_funcCount f r.table

theorem step_finalize_func {g : Ptr} (hi : i < r.table.funcCount) (hg : g ≠ 0) :
    ((r.step (.finalize f)).table.funcs i).destructorFunc = g ↔
      (r.table.funcs i).destructorFunc = g ∧ (f = 0 ∨ g ≠ f) := by
  rw [step_finalize]
  dsimp only
  rw [cxaFinalize_funcs f hi]
  by_cases hclear : f ≠ 0 ∧ (r.table.funcs i).destructorFunc = f
  · rw [if_pos hclear]
    constructor
    · intro h0
      exact absurd h0.symm hg
    · rintro ⟨rfl, hor⟩
      exact absurd hclear.2 (hor.resolve_left hclear.1)
  · rw [if_neg hclear]
    constructor
    · rintro rfl
      exact ⟨rfl, (em (f = 0)).imp_right fun hf hc => hclear ⟨hf, hc⟩⟩
    · exact fun hc => hc.1

theorem mem_ran_finalize_other {g : Ptr} (hf : f ≠ 0) (hfunc : (r.table.funcs i).destructorFunc = g)
    (hgf : g ≠ f) : i ∈ (r.step (.finalize f)).ran ↔ i ∈ r.ran := by
  rw [mem_ran_finalize]
  exact or_iff_left fun hc => hgf (hfunc.symm.trans ((covers_iff hf _).mp hc.2))

theorem Ledger.Matches.finalizeAll (h : l.Matches r) :
    (l.step (.finalize 0)).Matches (r.step (.finalize 0)) := by
  have hcount := step_finalize_funcCount 0 (r := r)
  rw [Ledger.step, if_pos rfl]
  refine ⟨h.funcCount.trans hcount.symm, fun g => ?_, fun g => ?_⟩
  · refine iff_of_false List.not_mem_nil ?_
    rintro ⟨hg, i, hi, hfunc, hnew⟩
    rw [hcount] at hi
    have hset := ((step_finalize_func hi hg).mp hfunc).1
    exact hnew (mem_ran_finalize.mpr (.inr ⟨hi, hset ▸ hg, .inl rfl⟩))
  · rw [List.mem_append, h.spent, h.fresh, hcount]
    constructor
    · rintro (⟨hg, i, hi, hfunc, -⟩ | ⟨hg, i, hi, hfunc, -⟩) <;>
      exact ⟨hg, i, hi, (step_finalize_func hi hg).mpr ⟨hfunc, .inl rfl⟩,
        mem_ran_finalize.mpr (.inr ⟨hi, hfunc ▸ hg, .inl rfl⟩)⟩
    · rintro ⟨hg, i, hi, hfunc, -⟩
      have hset := ((step_finalize_func hi hg).mp hfunc).1
      by_cases hran : i ∈ r.ran
      · exact .inl ⟨hg, i, hi, hset, hran⟩
      · exact .inr ⟨hg, i, hi, hset, hran⟩

theorem Ledger.Matches.finalizeOne (h : l.Matches r) (hf : f ≠ 0) :
    (l.step (.finalize f)).Matches (r.step (.finalize f)) := by
  have hcount := step_finalize_funcCount f (r := r)
  rw [Ledger.step, if_neg hf]
  refine ⟨h.funcCount.trans hcount.symm, fun g => ?_, fun g => ?_⟩
  · rw [List.mem_filter, decide_eq_true_iff, h.fresh, hcount]
    constructor
    · rintro ⟨⟨hg, i, hi, hfunc, hnew⟩, hgf⟩
      refine ⟨hg, i, hi, (step_finalize_func hi hg).mpr ⟨hfunc, .inr hgf⟩, fun hc => hnew ?_⟩
      exact (mem_ran_finalize_other hf hfunc hgf).mp hc
    · rintro ⟨hg, i, hi, hfunc, hnew⟩
      obtain ⟨hset, hor⟩ := (step_finalize_func hi hg).mp hfunc
      have hgf := hor.resolve_left hf
      refine ⟨⟨hg, i, hi, hset, fun hc => hnew ?_⟩, hgf⟩
      exact (mem_ran_finalize_other hf hset hgf).mpr hc
  · rw [List.mem_filter, decide_eq_true_iff, h.spent, hcount]
    constructor
    · rintro ⟨⟨hg, i, hi, hfunc, hold⟩, hgf⟩
      exact ⟨hg, i, hi, (step_finalize_func hi hg).mpr ⟨hfunc, .inr hgf⟩,
        (mem_ran_finalize_other hf hfunc hgf).mpr hold⟩
    · rintro ⟨hg, i, hi, hfunc, hold⟩
      obtain ⟨hset, hor⟩ := (step_finalize_func hi hg).mp hfunc
      have hgf := hor.resolve_left hf
      exact ⟨⟨hg, i, hi, hset, (mem_ran_finalize_other hf hset hgf).mp hold⟩, hgf⟩

theorem Ledger.Matches.finalize (h : l.Matches r) (f : Ptr) :
    (l.step (.finalize f)).Matches (r.step (.finalize f)) := by
  by_cases hf : f = 0
  · subst hf
    exact h.finalizeAll
  · exact h.finalizeOne hf

theorem Ledger.Matches.spent_iff (h : l.Matches r) : (∀ g ∈ l.spent, ¬ Covers f g) ↔
    ∀ i < r.table.funcCount, Covers f (r.table.funcs i).destructorFunc → i ∉ r.ran := by
  constructor
  · intro hno i hi hcov hran
    exact hno _ ((h.spent _).mpr ⟨hcov.1, i, hi, rfl, hran⟩) hcov
  · intro hno g hg hcov
    obtain ⟨-, i, hi, hfunc, hran⟩ := (h.spent g).mp hg
    exact hno i hi (hfunc ▸ hcov) hran

theorem orderly_iff (hreg : ∀ f objptr dso, .atexit f objptr dso ∈ ops → f ≠ 0) (hv : r.Valid)
    (hl : l.Matches r) : Orderly ops r ↔ NeverAgain ops l := by
  induction ops generalizing r l with
  | nil => exact Iff.rfl
  | cons op ops ih =>
    have hreg' : ∀ f objptr dso, .atexit f objptr dso ∈ ops → f ≠ 0 :=
      fun f objptr dso h => hreg f objptr dso (List.mem_cons_of_mem op h)
    cases op with
    | atexit f objptr dso =>
      have hf : f ≠ 0 := hreg f objptr dso List.mem_cons_self
      exact ih hreg' (hv.atexit hf objptr dso) (hl.atexit hv hf objptr dso)
    | finalize f =>
      rw [Orderly, NeverAgain, hv.calls_due f, ih hreg' (hv.finalize f) (hl.finalize f),
        hl.spent_iff]
      refine and_congr_left fun _ => and_iff_left ?_
      rintro rfl
      exact hv.due_after

theorem Orderly.nodup (h : Orderly ops r) (hr : r.ran.Nodup) :
    (ops.foldl Run.step r).ran.Nodup := by
  induction ops generalizing r with
  | nil => exact hr
  | cons op ops ih =>
    rw [List.foldl_cons]
    cases op with
    | atexit f objptr dso => exact ih h hr
    | finalize f =>
      obtain ⟨⟨hdue, -⟩, hrest⟩ := h
      refine ih hrest ?_
      rw [cxaFinalize_calls] at hdue
      rw [step_finalize]
      refine List.Nodup.append hr ?_ ?_
      · rw [covered_index]
        exact (List.nodup_reverse.mpr List.nodup_range).filter _
      · rintro i hi hi'
        obtain ⟨c, hc, rfl⟩ := List.mem_map.mp hi'
        exact mem_due (hdue ▸ hc) hi

end Run

theorem start_valid : Run.start.Valid := ⟨rfl, nofun, nofun⟩

theorem start_matches : Ledger.start.Matches .start := by
  refine ⟨rfl, fun g => iff_of_false List.not_mem_nil ?_, fun g => iff_of_false List.not_mem_nil ?_⟩
  · rintro ⟨-, i, hi, -⟩
    exact absurd hi (Nat.not_lt_zero i)
  · rintro ⟨-, i, hi, -⟩
    exact absurd hi (Nat.not_lt_zero i)

/-- Destructors are called at most once, in reverse order and completely, in exactly those sequences
in which no finalization comes to an entry that a call with `NULL` has called before. -/
theorem destructors_once (ops : List Op)
    (hreg : ∀ f objptr dso, .atexit f objptr dso ∈ ops → f ≠ 0) :
    ((ops.foldl Run.step .start).ran.Nodup ∧ Orderly ops .start) ↔ NeverAgain ops .start := by
  rw [← orderly_iff hreg start_valid start_matches]
  exact and_iff_right_of_imp fun h => h.nodup List.nodup_nil

def shared : List Op := [.atexit 0x100 1 0, .atexit 0x200 2 0, .atexit 0x100 3 0, .finalize 0x100,
  .finalize 0]

theorem destructors_once_shared : (shared.foldl Run.step .start).ran = [2, 0, 1] ∧
    ((shared.foldl Run.step .start).ran.Nodup ∧ Orderly shared .start) := by
  refine ⟨by decide +kernel, (destructors_once shared ?_).mpr ?_⟩
  · simp only [shared, List.mem_cons, List.not_mem_nil, Op.atexit.injEq, reduceCtorEq, or_false]
    rintro f objptr dso (⟨rfl, -, -⟩ | ⟨rfl, -, -⟩ | ⟨rfl, -, -⟩) <;> decide
  · simp [shared, NeverAgain, Ledger.step, Ledger.start, ATEXIT_MAX_FUNCS]

theorem destructors_called_twice :
    ((([.atexit 0x100 1 0, .finalize 0, .finalize 0] : List Op).foldl Run.step .start).ran) = [0, 0] ∧
    ¬ ((([.atexit 0x100 1 0, .finalize 0, .finalize 0] : List Op).foldl Run.step .start).ran.Nodup ∧
      Orderly [.atexit 0x100 1 0, .finalize 0, .finalize 0] .start) := by
  have hran : (([.atexit 0x100 1 0, .finalize 0, .finalize 0] : List Op).foldl
      Run.step .start).ran = [0, 0] := by decide +kernel
  refine ⟨hran, fun h => ?_⟩
  rw [hran] at h
  exact absurd h.1 (by decide)

end Abydos.Cxxabi
