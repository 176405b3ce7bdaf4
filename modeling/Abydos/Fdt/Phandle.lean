import Abydos.Fdt.Helper

namespace Abydos.Fdt

def FDT_MAX_PHANDLE_ARGS : Nat := 16

structure PhandleArgs where
  nodeOffset : Int
  argsCount : Int
  args : Vector (BitVec 32) FDT_MAX_PHANDLE_ARGS

structure PhandleOut where
  reads : List Cell
  outArgs : PhandleArgs

abbrev PhandleM := StateM PhandleOut

section Functions

variable (t : Tree) (nodeoff : Int) (prop cellsProp : String)

def fetch (node : Int) (prop : String) (i : Nat) : PhandleM (BitVec 32) := do
  modify fun o => { o with reads := o.reads ++ [⟨node, prop, i⟩] }
  return peek t node prop i

def storeArgs (list : Nat) : Nat → Nat → PhandleM Unit
  | _, 0 => return
  | i, n + 1 => do
    let x ← fetch t nodeoff prop (list + i)
    modify fun o =>
      { o with outArgs := { o.outArgs with args := o.outArgs.args.setIfInBounds i x } }
    storeArgs list (i + 1) n

/-- The loop over the list, a round of which takes at least one cell. -/
def parseLoop (listEnd : Nat) : Nat → Nat → Int → PhandleM Int
  | 0, _, _ => return K_ENOENT
  | fuel + 1, list, index =>
    if list < listEnd then do
      let phandle ← fetch t nodeoff prop list
      let pnodeoff := t.nodeOffsetByPhandle phandle
      if pnodeoff < 0 then return pnodeoff
      else
        match t.getprop pnodeoff cellsProp with
        | none => return K_ENOENT
        | some _ => do
          let pcells ← fetch t pnodeoff cellsProp 0
          if FDT_MAX_PHANDLE_ARGS < pcells.toNat then return K_EINVAL
          else if list + 1 + pcells.toNat > listEnd then return K_ENOENT
          else if index > 0 then parseLoop listEnd fuel (list + 1 + pcells.toNat) (index - 1)
          else do
            modify fun o =>
              { o with outArgs := { o.outArgs with nodeOffset := pnodeoff, argsCount := pcells.toNat } }
            storeArgs t nodeoff prop (list + 1) 0 pcells.toNat
            return 0
    else return K_ENOENT

def parsePhandleWithArgs (index : Int) : PhandleM Int :=
  if nodeoff < 0 then return K_EINVAL
  else
    match t.getprop nodeoff prop with
    | none => return K_ENOENT
    | some list =>
      parseLoop t nodeoff prop cellsProp (list.length / 4) (list.length / 4 + 1) 0 index

end Functions

def cellsOf (v : Bytes) : List (BitVec 32) :=
  (List.range (v.length / 4)).map fun i => (cellAt v i).getD 0

def group (t : Tree) (cellsProp : String) :
    List (BitVec 32) → Option ((Int × List (BitVec 32)) × List (BitVec 32))
  | [] => none
  | phandle :: list =>
    let node := t.nodeOffsetByPhandle phandle
    match (t.getprop node cellsProp).bind cell with
    | none => none
    | some count =>
      if 0 ≤ node ∧ count.toNat ≤ FDT_MAX_PHANDLE_ARGS ∧ count.toNat ≤ list.length then
        some ((node, list.take count.toNat), list.drop count.toNat)
      else none

def groupAt (t : Tree) (cellsProp : String) :
    Nat → List (BitVec 32) → Option (Int × List (BitVec 32))
  | 0, list => (group t cellsProp list).map Prod.fst
  | i + 1, list => (group t cellsProp list).bind fun g => groupAt t cellsProp i g.2

def Parsed (out : PhandleArgs) (g : Option (Int × List (BitVec 32))) (rc : Int)
    (out' : PhandleArgs) : Prop :=
  match g with
  | none => rc < 0 ∧ out' = out
  | some (node, args) => rc = 0 ∧ out'.nodeOffset = node ∧ out'.argsCount = args.length ∧
      ∀ i : Nat, out'.args[i]? = if i < args.length then args[i]? else out.args[i]?

section Parse

variable {t : Tree} {nodeoff : Int} {prop cellsProp : String} {v : Bytes} {o : PhandleOut}
  {list i n : Nat}

theorem run_fetch (node : Int) (prop : String) (i : Nat) (o : PhandleOut) :
    (fetch t node prop i).run o =
      (peek t node prop i, { o with reads := o.reads ++ [⟨node, prop, i⟩] }) := rfl

theorem run_storeArgs (t : Tree) (nodeoff : Int) (prop : String) (list i n : Nat) (o : PhandleOut) :
    ∃ args', (storeArgs t nodeoff prop list i n).run o =
        ((), ⟨o.reads ++ span nodeoff prop (list + i) n, { o.outArgs with args := args' }⟩) ∧
      ∀ j : Nat, args'[j]? = if i ≤ j ∧ j < i + n ∧ j < FDT_MAX_PHANDLE_ARGS then
        some (peek t nodeoff prop (list + j)) else o.outArgs.args[j]? := by
  induction n generalizing i o with
  | zero =>
    refine ⟨o.outArgs.args, ?_, fun j => ?_⟩
    · rw [span, List.range'_zero, List.map_nil, List.append_nil]
      rfl
    · rw [if_neg (by omega)]
  | succ n ih =>
    obtain ⟨args', hrun, hargs⟩ := ih (i + 1) ⟨o.reads ++ [⟨nodeoff, prop, list + i⟩],
      { o.outArgs with args := o.outArgs.args.setIfInBounds i (peek t nodeoff prop (list + i)) }⟩
    refine ⟨args', hrun.trans ?_, fun j => ?_⟩
    · dsimp only
      rw [span, span, List.range'_succ, List.map_cons, List.append_assoc]
      rfl
    · rw [hargs, Vector.getElem?_setIfInBounds]
      by_cases hij : i = j
      · subst hij
        rw [if_neg (by omega), if_pos rfl]
        by_cases hi : i < FDT_MAX_PHANDLE_ARGS
        · rw [if_pos hi, if_pos ⟨Nat.le_refl i, by omega, hi⟩]
        · rw [if_neg hi, if_neg fun h => hi h.2.2]
          exact (Vector.getElem?_eq_none (Nat.not_lt.mp hi)).symm
      · rw [if_neg hij]
        have hiff : (i + 1 ≤ j ∧ j < i + 1 + n ∧ j < FDT_MAX_PHANDLE_ARGS) ↔
            (i ≤ j ∧ j < i + (n + 1) ∧ j < FDT_MAX_PHANDLE_ARGS) := by omega
        simp only [hiff]

theorem cellsOf_length (v : Bytes) : (cellsOf v).length = v.length / 4 := by
  rw [cellsOf, List.length_map, List.length_range]

theorem getElem?_cellsOf (hv : t.getprop nodeoff prop = some v) (hi : i < v.length / 4) :
    (cellsOf v)[i]? = some (peek t nodeoff prop i) := by
  obtain ⟨c, hc⟩ := Option.isSome_iff_exists.mp (cellAt_isSome.mpr
    (show 4 * (i + 1) ≤ v.length by omega))
  rw [cellsOf, List.getElem?_map, List.getElem?_range hi, Option.map_some, peek, hv,
    Option.bind_some, hc]
  rfl

theorem drop_cellsOf (hv : t.getprop nodeoff prop = some v) (hi : i < v.length / 4) :
    (cellsOf v).drop i = peek t nodeoff prop i :: (cellsOf v).drop (i + 1) := by
  have hlt : i < (cellsOf v).length := by
    rw [cellsOf_length]
    exact hi
  rw [List.drop_eq_getElem_cons hlt]
  congr 1
  exact Option.some.inj ((List.getElem?_eq_getElem hlt).symm.trans (getElem?_cellsOf hv hi))

theorem groupAt_none (h : group t cellsProp cs = none) (index : Nat) :
    groupAt t cellsProp index cs = none := by
  cases index with
  | zero => rw [groupAt, h, Option.map_none]
  | succ index => rw [groupAt, h, Option.bind_none]

theorem group_cons (phandle : BitVec 32) (cs : List (BitVec 32)) {count : BitVec 32}
    (hcount : (t.getprop (t.nodeOffsetByPhandle phandle) cellsProp).bind cell = some count) :
    group t cellsProp (phandle :: cs) =
      if 0 ≤ t.nodeOffsetByPhandle phandle ∧ count.toNat ≤ FDT_MAX_PHANDLE_ARGS ∧
        count.toNat ≤ cs.length then
        some ((t.nodeOffsetByPhandle phandle, cs.take count.toNat), cs.drop count.toNat)
      else none := by
  rw [group, hcount]

theorem group_unresolved {phandle : BitVec 32} (h : t.nodeOffsetByPhandle phandle < 0)
    (cs : List (BitVec 32)) : group t cellsProp (phandle :: cs) = none := by
  rw [group]
  split
  · rfl
  · exact if_neg fun hc => absurd hc.1 (Int.not_le.mpr h)

theorem group_missing {phandle : BitVec 32}
    (h : t.getprop (t.nodeOffsetByPhandle phandle) cellsProp = none) (cs : List (BitVec 32)) :
    group t cellsProp (phandle :: cs) = none := by
  rw [group, h]
  rfl

/-- A run that does what the list says and reads nothing outside of properties. -/
def Lawful (t : Tree) (out : PhandleArgs) (g : Option (Int × List (BitVec 32)))
    (r : Int × PhandleOut) : Prop :=
  Parsed out g r.1 r.2.outArgs ∧ ∀ c ∈ r.2.reads, Inside t c

theorem lawful_store (hv : t.getprop nodeoff prop = some v) {node : Int} {count : Nat}
    (hcount : count ≤ FDT_MAX_PHANDLE_ARGS) (hend : list + count ≤ v.length / 4)
    (hin : ∀ c ∈ o.reads, Inside t c) :
    Lawful t o.outArgs (some (node, ((cellsOf v).drop list).take count))
      ((do
        modify fun o =>
          { o with outArgs := { o.outArgs with nodeOffset := node, argsCount := count } }
        storeArgs t nodeoff prop list 0 count
        return 0 : PhandleM Int).run o) := by
  obtain ⟨args', hrun, hargs⟩ := run_storeArgs t nodeoff prop list 0 count
    { o with outArgs := { o.outArgs with nodeOffset := node, argsCount := count } }
  have hlen : (((cellsOf v).drop list).take count).length = count := by
    rw [List.length_take, List.length_drop, cellsOf_length]
    omega
  have hall : (do
        modify fun o =>
          { o with outArgs := { o.outArgs with nodeOffset := node, argsCount := count } }
        storeArgs t nodeoff prop list 0 count
        return 0 : PhandleM Int).run o =
      (0, ⟨o.reads ++ span nodeoff prop (list + 0) count, ⟨node, count, args'⟩⟩) :=
    (run_bind rfl).trans ((run_bind hrun).trans rfl)
  rw [hall]
  refine ⟨⟨rfl, rfl, ?_, fun j => ?_⟩, fun c hc => ?_⟩
  · rw [hlen]
  · rw [hlen, hargs]
    by_cases hj : j < count
    · rw [if_pos ⟨Nat.zero_le j, by omega, by omega⟩, if_pos hj, List.getElem?_take_of_lt hj,
        List.getElem?_drop, getElem?_cellsOf hv (by omega)]
    · rw [if_neg (by omega), if_neg hj]
  · rcases List.mem_append.mp hc with hc | hc
    · exact hin c hc
    · exact inside_of_span hv (by omega) hc

theorem lawful_refused {cs : List (BitVec 32)} {rc : Int} {reads : List Cell} {out : PhandleArgs}
    (hg : group t cellsProp cs = none) (hrc : rc < 0) (hin : ∀ c ∈ reads, Inside t c)
    (index : Nat) : Lawful t out (groupAt t cellsProp index cs) (rc, ⟨reads, out⟩) := by
  rw [groupAt_none hg]
  exact ⟨⟨hrc, rfl⟩, hin⟩

theorem inside_append {c : Cell} {reads : List Cell} (hin : ∀ c ∈ reads, Inside t c)
    (hc : Inside t c) : ∀ c' ∈ reads ++ [c], Inside t c' := by
  intro c' hc'
  rcases List.mem_append.mp hc' with hc' | hc'
  · exact hin c' hc'
  · exact List.mem_singleton.mp hc' ▸ hc

theorem peek_first {node : Int} {w : Bytes} {x : BitVec 32} (hw : t.getprop node prop = some w)
    (hx : cell w = some x) : peek t node prop 0 = x := by
  rw [peek, hw, Option.bind_some, cellAt, Nat.mul_zero, List.drop_zero, hx, Option.getD_some]

theorem lawful_parseLoop (hv : t.getprop nodeoff prop = some v)
    (hcells : ∀ node w, t.getprop node cellsProp = some w → 4 ≤ w.length) (fuel list index : Nat)
    (hfuel : v.length / 4 < list + fuel) (o : PhandleOut) (hin : ∀ c ∈ o.reads, Inside t c) :
    Lawful t o.outArgs (groupAt t cellsProp index ((cellsOf v).drop list))
      ((parseLoop t nodeoff prop cellsProp (v.length / 4) fuel list index).run o) := by
  induction fuel generalizing list index o with
  | zero =>
    rw [List.drop_eq_nil_of_le (by rw [cellsOf_length]; omega)]
    exact lawful_refused rfl (by decide) hin index
  | succ fuel ih =>
    rw [parseLoop]
    by_cases hlist : list < v.length / 4
    · rw [if_pos hlist, drop_cellsOf hv hlist, run_bind (run_fetch ..)]
      have hin₁ := inside_append hin (c := ⟨nodeoff, prop, list⟩)
        ⟨v, hv, show 4 * (list + 1) ≤ v.length by omega⟩
      generalize peek t nodeoff prop list = phandle
      by_cases hneg : t.nodeOffsetByPhandle phandle < 0
      · rw [if_pos hneg]
        exact lawful_refused (group_unresolved hneg _) hneg hin₁ index
      rw [if_neg hneg]
      cases hprop : t.getprop (t.nodeOffsetByPhandle phandle) cellsProp with
      | none => exact lawful_refused (group_missing hprop _) (by decide) hin₁ index
      | some w =>
        have hw := hcells _ w hprop
        obtain ⟨count, hcount⟩ := Option.isSome_iff_exists.mp (cell_isSome.mpr hw)
        have hin₂ := inside_append hin₁ (c := ⟨t.nodeOffsetByPhandle phandle, cellsProp, 0⟩)
          ⟨w, hprop, hw⟩
        have hlen : ((cellsOf v).drop (list + 1)).length = v.length / 4 - (list + 1) := by
          rw [List.length_drop, cellsOf_length]
        have hg := group_cons phandle ((cellsOf v).drop (list + 1))
          ((congrArg (Option.bind · cell) hprop).trans hcount)
        rw [hlen] at hg
        dsimp only
        rw [run_bind (run_fetch ..), peek_first hprop hcount]
        by_cases hmax : FDT_MAX_PHANDLE_ARGS < count.toNat
        · rw [if_pos hmax]
          rw [if_neg fun h => absurd h.2.1 (Nat.not_le.mpr hmax)] at hg
          exact lawful_refused hg (by decide) hin₂ index
        rw [if_neg hmax]
        by_cases hend : list + 1 + count.toNat > v.length / 4
        · rw [if_pos hend]
          rw [if_neg (by omega)] at hg
          exact lawful_refused hg (by decide) hin₂ index
        rw [if_neg hend]
        rw [if_pos ⟨Int.not_lt.mp hneg, Nat.not_lt.mp hmax, by omega⟩] at hg
        cases index with
        | zero =>
          rw [groupAt, hg, Option.map_some, if_neg (by decide)]
          exact lawful_store hv (Nat.not_lt.mp hmax) (Nat.not_lt.mp hend) hin₂
        | succ index =>
          rw [groupAt, hg, Option.bind_some, if_pos (by omega), List.drop_drop,
            show ((index + 1 : Nat) : Int) - 1 = index by omega]
          exact ih (list + 1 + count.toNat) index (by omega) _ hin₂
    · rw [if_neg hlist, List.drop_eq_nil_of_le (by rw [cellsOf_length]; omega)]
      exact lawful_refused rfl (by decide) hin index

end Parse

theorem parse_phandle_groups (t : Tree) (nodeoff : Int) (prop cellsProp : String) (index : Nat)
    (out : PhandleArgs) (hcells : ∀ node w, t.getprop node cellsProp = some w → 4 ≤ w.length) :
    Lawful t out (groupAt t cellsProp index (cellsOf ((t.getprop nodeoff prop).getD [])))
      ((parsePhandleWithArgs t nodeoff prop cellsProp index).run ⟨[], out⟩) := by
  have hnone : ∀ c ∈ ([] : List Cell), Inside t c := fun _ hc => absurd hc List.not_mem_nil
  unfold parsePhandleWithArgs
  by_cases hneg : nodeoff < 0
  · have hprop : t.getprop nodeoff prop = none := by
      cases hn : t.node nodeoff with
      | none => rw [Tree.getprop, hn, Option.bind_none]
      | some n =>
        have hoff := (Tree.mem_of_node hn).2
        omega
    rw [if_pos hneg, hprop]
    exact lawful_refused rfl (by decide) hnone index
  · rw [if_neg hneg]
    cases hv : t.getprop nodeoff prop with
    | none => exact lawful_refused rfl (by decide) hnone index
    | some v =>
      have h := lawful_parseLoop hv hcells (v.length / 4 + 1) 0 index (by omega) ⟨[], out⟩ hnone
      rw [List.drop_zero] at h
      exact h

def lines : Tree where
  nodes := [⟨0, "", none, []⟩,
    ⟨8, "intc", some 0, [("phandle", [0, 0, 0, 3]), ("#interrupt-cells", [0, 0, 0, 1])]⟩,
    ⟨64, "timer", some 0,
      [("interrupts-extended", [0, 0, 0, 3, 0, 0, 0, 9, 0, 0, 0, 3, 0, 0, 0, 11])]⟩]
  inOrder := by decide
  above := by decide
  short := by decide
  memRsv := []
  beyond := fun _ _ _ => 0

theorem parse_phandle_second :
    groupAt lines "#interrupt-cells" 1 (cellsOf ((lines.getprop 64 "interrupts-extended").getD [])) =
      some (8, [11]) ∧
    ∀ out, Lawful lines out (some (8, [11]))
      ((parsePhandleWithArgs lines 64 "interrupts-extended" "#interrupt-cells" 1).run ⟨[], out⟩) := by
  have hgroup : groupAt lines "#interrupt-cells" 1
      (cellsOf ((lines.getprop 64 "interrupts-extended").getD [])) = some (8, [11]) := by
    decide +kernel
  refine ⟨hgroup, fun out => ?_⟩
  rw [← hgroup]
  refine parse_phandle_groups lines 64 _ _ 1 out fun node w hw => ?_
  have hall : ∀ n ∈ lines.nodes, ∀ q ∈ n.props, q.1 = "#interrupt-cells" → 4 ≤ q.2.length := by
    decide +kernel
  obtain ⟨n, hn, hmem⟩ := Tree.mem_of_getprop hw
  exact hall n hn (_, w) hmem rfl

end Abydos.Fdt
