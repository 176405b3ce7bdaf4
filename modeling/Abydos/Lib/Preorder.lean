import Mathlib.Data.List.Chain
import Mathlib.Data.List.TakeWhile

namespace Abydos.Lib.Preorder

variable {α : Type} (depth : α → Nat)

abbrev Steps (l : List α) : Prop := l.IsChain fun a b => depth b ≤ depth a + 1

def skip (d : Nat) (l : List α) : List α := l.dropWhile (d < depth ·)

/-- The children of a node of depth `d`, where `l` is what comes after it. -/
def children (d : Nat) (l : List α) : List α := (l.takeWhile (d < depth ·)).filter (depth · = d + 1)

def parent (d : Nat) (before : List α) : Option α := before.reverse.find? (depth · + 1 = d)

variable {depth} {a n m : α} {d : Nat} {l before between post : List α}

theorem skip_append (hl : ∀ a ∈ l, d < depth a) (hpost : ∀ a ∈ post.head?, depth a ≤ d) :
    skip depth d (l ++ post) = post := by
  rw [skip, List.dropWhile_append_of_pos (by simpa using hl)]
  cases post with
  | nil => rfl
  | cons a post => exact List.dropWhile_cons_of_neg (by simpa using hpost a rfl)

theorem children_of_le (h : depth a ≤ d) : children depth d (a :: l) = [] := by
  rw [children, List.takeWhile_cons_of_neg (by simpa using h)]
  rfl

theorem children_of_lt (h : d < depth a) : children depth d (a :: l) =
    if depth a = d + 1 then a :: children depth d l else children depth d l := by
  rw [children, List.takeWhile_cons_of_pos (by simpa using h), List.filter_cons]
  simp only [decide_eq_true_eq]
  rfl

theorem children_cons (h : depth a = d + 1) :
    children depth d (a :: l) = a :: children depth d (skip depth (d + 1) l) := by
  have hdeeper : ∀ l : List α, children depth d l = children depth d (skip depth (d + 1) l) := by
    intro l
    induction l with
    | nil => rfl
    | cons b l ih =>
      by_cases hb : d + 1 < depth b
      · rw [skip, List.dropWhile_cons_of_pos (by simpa using hb), ← skip, ← ih,
          children_of_lt (by omega), if_neg (by omega)]
      · rw [skip, List.dropWhile_cons_of_neg (by simpa using hb)]
  rw [← hdeeper, children_of_lt (by omega), if_pos h]

theorem parent_append_of_ne (h : ∀ a ∈ between, depth a + 1 ≠ d) :
    parent depth d (before ++ between) = parent depth d before := by
  rw [parent, List.reverse_append, List.find?_append, List.find?_eq_none.mpr (by simpa using h)]
  rfl

theorem parent_append_of_eq (h : depth n + 1 = d) : parent depth d (before ++ [n]) = some n := by
  rw [parent, List.reverse_append]
  exact List.find?_cons_of_pos (by simpa using h)

theorem parent_append_of_mem (ha : a ∈ between) (h : depth a + 1 = d) :
    ∃ p ∈ between, parent depth d (before ++ between) = some p := by
  rw [parent, List.reverse_append, List.find?_append]
  cases hp : between.reverse.find? (depth · + 1 = d) with
  | none => exact absurd h (by simpa using List.find?_eq_none.mp hp a (List.mem_reverse.mpr ha))
  | some p => exact ⟨p, List.mem_reverse.mp (List.mem_of_find?_eq_some hp), rfl⟩

theorem parent_mem (h : parent depth d l = some a) : a ∈ l ∧ depth a + 1 = d := by
  refine ⟨List.mem_reverse.mp (List.mem_of_find?_eq_some h), ?_⟩
  simpa using List.find?_some h

theorem exists_depth_eq (hsteps : Steps depth (a :: (between ++ m :: post))) (ha : depth a ≤ d)
    (hm : d < depth m) : ∃ b ∈ a :: between, depth b = d := by
  induction between generalizing a with
  | nil =>
    have := (List.isChain_cons_cons.mp hsteps).1
    exact ⟨a, List.mem_cons_self, by omega⟩
  | cons c between ih =>
    obtain ⟨hstep, hsteps⟩ := List.isChain_cons_cons.mp hsteps
    by_cases hc : depth c ≤ d
    · obtain ⟨b, hb, hd⟩ := ih hsteps hc
      exact ⟨b, List.mem_cons_of_mem a hb, hd⟩
    · exact ⟨a, List.mem_cons_self, by omega⟩

section Linked

variable (depth) (key : α → Nat) (up : α → Option Nat)

/-- Every node of `l` names the one that is its parent by the depths. -/
def Linked : List α → List α → Prop
  | _, [] => True
  | before, m :: l => up m = (parent depth (depth m) before).map key ∧ Linked (before ++ [m]) l

variable {depth key up}

theorem linked_append {l l' : List α} : Linked depth key up before (l ++ l') ↔
    Linked depth key up before l ∧ Linked depth key up (before ++ l) l' := by
  induction l generalizing before with
  | nil => simp [Linked]
  | cons m l ih =>
    simp only [List.cons_append, Linked, ih, and_assoc, List.append_assoc, List.nil_append]

theorem Linked.up_eq (h : Linked depth key up [] (before ++ m :: post)) :
    up m = (parent depth (depth m) before).map key :=
  (linked_append.mp h).2.1

theorem Linked.up_ne_of_before (h : Linked depth key up [] (before ++ n :: post))
    (hkeys : (before ++ n :: post).Pairwise fun a b => key a < key b) :
    ∀ m ∈ before ++ [n], up m ≠ some (key n) := by
  intro m hm hup
  obtain ⟨s, t, hst⟩ := List.append_of_mem hm
  have hl : before ++ n :: post = s ++ m :: (t ++ post) := by
    rw [List.append_cons, hst, List.append_assoc, List.cons_append]
  rw [hl] at h
  rw [h.up_eq, Option.map_eq_some_iff] at hup
  obtain ⟨p, hp, hkey⟩ := hup
  -- the parent is in `s`, so that its key is below the keys of what comes after
  have hps : p ∈ s := (parent_mem hp).1
  have hn : n ∈ m :: t := by
    have hlast := congrArg List.getLast? hst
    rw [List.getLast?_append_cons, List.getLast?_append_cons] at hlast
    exact List.mem_of_getLast? (hlast ▸ rfl)
  have hpair : (s ++ (m :: t ++ post)).Pairwise fun a b => key a < key b := by
    rw [List.cons_append, ← hl]
    exact hkeys
  have hlt := (List.pairwise_append.mp hpair).2.2 p hps n (List.mem_append_left _ hn)
  omega

omit depth in
theorem eq_of_key_eq (hkeys : (before ++ n :: post).Pairwise fun a b => key a < key b)
    (hm : m ∈ before ++ n :: post) (h : key m = key n) : m = n := by
  obtain ⟨-, htail, hcross⟩ := List.pairwise_append.mp hkeys
  rcases List.mem_append.mp hm with hb | hb
  · have := hcross m hb n List.mem_cons_self
    omega
  · rcases List.mem_cons.mp hb with rfl | hb
    · rfl
    · have := (List.pairwise_cons.mp htail).1 m hb
      omega

theorem Linked.up_ne_of_left (h : Linked depth key up [] (before ++ n :: (between ++ m :: post)))
    (hkeys : (before ++ n :: (between ++ m :: post)).Pairwise fun a b => key a < key b)
    (hsteps : Steps depth (before ++ n :: (between ++ m :: post))) (hm : depth m ≤ depth n) :
    ∀ x ∈ m :: post, up x ≠ some (key n) := by
  intro x hx hup
  obtain ⟨s, t, hst⟩ := List.append_of_mem hx
  have hl : before ++ n :: (between ++ m :: post) = before ++ n :: (between ++ s) ++ x :: t := by
    rw [hst, List.append_assoc, List.cons_append, List.append_assoc]
  rw [hl] at h
  rw [h.up_eq, Option.map_eq_some_iff] at hup
  obtain ⟨p, hp, hkey⟩ := hup
  obtain ⟨hpmem, hpdepth⟩ := parent_mem hp
  have hpn : p = n := by
    refine eq_of_key_eq hkeys ?_ hkey
    rw [hl]
    exact List.mem_append_left _ hpmem
  subst hpn
  -- so `x` is deeper than `m`, and a node of the same depth as `n` was passed
  cases s with
  | nil =>
    cases hst
    omega
  | cons c s =>
    obtain ⟨rfl, rfl⟩ := List.cons.inj hst
    have htail : Steps depth (m :: (s ++ x :: t)) := by
      have := (List.isChain_append.mp hsteps).2.1
      rw [← List.cons_append] at this
      exact (List.isChain_append.mp this).2.1
    obtain ⟨y, hy, hyd⟩ := exists_depth_eq htail hm (by omega)
    have hfound : ∃ q ∈ m :: s, parent depth (depth x) (before ++ p :: between ++ m :: s) = some q :=
      parent_append_of_mem hy (by omega)
    obtain ⟨q, hq, hqp⟩ := hfound
    rw [List.append_assoc, List.cons_append, hp] at hqp
    cases hqp
    have hafter := (List.pairwise_cons.mp (List.pairwise_append.mp hkeys).2.1).1
    have := hafter p (List.mem_append_right between (List.mem_append_left (x :: t) hq))
    omega

theorem Linked.filter_between (h : Linked depth key up [] (before ++ n :: (between ++ post)))
    (hkeys : (before ++ n :: (between ++ post)).Pairwise fun a b => key a < key b)
    (hsteps : Steps depth (before ++ n :: (between ++ post)))
    (hbelow : ∀ a ∈ between, depth n < depth a) :
    post.filter (up · = some (key n)) = children depth (depth n) post := by
  induction post generalizing between with
  | nil => rfl
  | cons m post ih =>
    by_cases hm : depth m ≤ depth n
    · rw [children_of_le hm, List.filter_eq_nil_iff]
      intro x hx
      simpa using h.up_ne_of_left hkeys hsteps hm x hx
    · have hassoc : between ++ m :: post = (between ++ [m]) ++ post := List.append_cons ..
      have hrest := ih (hassoc ▸ h) (hassoc ▸ hkeys) (hassoc ▸ hsteps) (by
        intro a ha
        rcases List.mem_append.mp ha with ha | ha
        · exact hbelow a ha
        · rw [List.mem_singleton.mp ha]
          omega)
      have hsplit : Linked depth key up [] (before ++ n :: between ++ m :: post) := by
        rw [List.append_assoc, List.cons_append]
        exact h
      have hup := hsplit.up_eq
      rw [children_of_lt (by omega), List.filter_cons, hrest]
      simp only [decide_eq_true_eq]
      refine if_congr ?_ rfl rfl
      rw [hup, List.append_cons]
      constructor
      · intro hkey
        obtain ⟨p, hp, hpkey⟩ := Option.map_eq_some_iff.mp hkey
        obtain ⟨hmem, hpd⟩ := parent_mem hp
        have hpn : p = n := by
          refine eq_of_key_eq hkeys ?_ hpkey
          rw [← List.cons_append, ← List.append_assoc, List.append_cons before]
          exact List.mem_append_left _ hmem
        rw [← hpd, hpn]
      · intro hd
        rw [parent_append_of_ne fun a ha => by have := hbelow a ha; omega,
          parent_append_of_eq hd.symm]
        rfl

theorem Linked.filter_eq_children (h : Linked depth key up [] (before ++ n :: post))
    (hkeys : (before ++ n :: post).Pairwise fun a b => key a < key b)
    (hsteps : Steps depth (before ++ n :: post)) :
    (before ++ n :: post).filter (up · = some (key n)) = children depth (depth n) post := by
  have hbefore : (before ++ [n]).filter (up · = some (key n)) = [] := by
    rw [List.filter_eq_nil_iff]
    intro m hm
    simpa using h.up_ne_of_before hkeys m hm
  rw [List.append_cons, List.filter_append, hbefore, List.nil_append]
  have h' : Linked depth key up [] (before ++ n :: ([] ++ post)) := h
  exact h'.filter_between hkeys hsteps (by simp)

end Linked

end Abydos.Lib.Preorder
