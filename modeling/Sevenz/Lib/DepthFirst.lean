import Mathlib.Data.UInt
import Mathlib.Data.List.Basic
import Mathlib.Data.List.Chain
import Mathlib.Logic.Relation
import Mathlib.Logic.Function.Basic
import Mathlib.Algebra.Order.BigOperators.Group.List
import Mathlib.Algebra.Order.Group.Nat

/-!
# Depth-first search with an explicit stack

A search over nodes whose children stand in numbered slots.  A frame holds a node and the
next of its slots.  A node is marked when it is entered and again when all its slots are
done; entering a node that is still on the path is a cycle.
-/

namespace Sevenz.Lib.DepthFirst

inductive Mark where
  | unseen
  | onPath
  | done
  deriving DecidableEq, Repr

structure Graph where
  slots : Nat → Nat
  child : Nat → Nat → Option Nat

inductive Outcome where
  | finished (marks : Nat → Mark)
  | cycle
  | outOfFuel

abbrev Frame := Nat × Nat

variable (g : Graph)

def Graph.Child (c d : Nat) : Prop := ∃ k < g.slots c, g.child c k = some d

def pushed (c k : Nat) : List Frame :=
  match g.child c k with
  | some d => [(d, 0), (c, k + 1)]
  | none => [(c, k + 1)]

def walk : Nat → (Nat → Mark) → List Frame → Outcome
  | _, marks, [] => .finished marks
  | 0, _, _ :: _ => .outOfFuel
  | fuel + 1, marks, (c, k) :: stack =>
      if k = 0 ∧ marks c = .onPath then .cycle
      else if k = 0 ∧ marks c = .done then walk fuel marks stack
      else
        let marks := if k = 0 then Function.update marks c .onPath else marks
        if k < g.slots c then walk fuel marks (pushed g c k ++ stack)
        else walk fuel (Function.update marks c .done) stack

/-- Below the top of the stack every slot walked so far leads to a finished node, or it is
the last one walked and its node has the frame just above. -/
def Linked (marks : Nat → Mark) : Option Nat → List Frame → Prop
  | _, [] => True
  | above, (c, k) :: stack =>
      (∀ j < k, ∀ d, g.child c j = some d →
        marks d = .done ∨ (j + 1 = k ∧ above = some d)) ∧
      Linked marks (some c) stack

/-- What holds between the rounds of a search from `root`. -/
structure Invariant (root : Nat) (marks : Nat → Mark) (stack : List Frame) : Prop where
  wellFounded : ∀ c, marks c = .done → Acc (fun d c => g.Child c d) c
  linked : Linked g marks none stack
  root : marks root = .done ∨ ∃ frame ∈ stack, frame.1 = root

variable {g}

theorem Linked.mono {marks marks' : Nat → Mark} {stack : List Frame}
    (hdone : ∀ c, marks c = .done → marks' c = .done) {above : Option Nat}
    (h : Linked g marks above stack) : Linked g marks' above stack := by
  induction stack generalizing above with
  | nil => trivial
  | cons frame stack ih =>
      obtain ⟨hslots, hrest⟩ := h
      exact ⟨fun j hj d hd => (hslots j hj d hd).imp_left (hdone d), ih hrest⟩

theorem Linked.pop {marks : Nat → Mark} {c : Nat} {stack : List Frame}
    (hc : marks c = .done) (h : Linked g marks (some c) stack) : Linked g marks none stack := by
  cases stack with
  | nil => trivial
  | cons frame stack =>
      obtain ⟨hslots, hrest⟩ := h
      refine ⟨fun j hj d hd => ?_, hrest⟩
      rcases hslots j hj d hd with hdone | ⟨-, hd⟩
      · exact Or.inl hdone
      · cases hd
        exact Or.inl hc

theorem Linked.push {marks : Nat → Mark} {c k : Nat} {stack : List Frame}
    (h : Linked g marks none ((c, k) :: stack)) :
    Linked g marks none (pushed g c k ++ stack) := by
  obtain ⟨hslots, hrest⟩ := h
  have hdone : ∀ j < k, ∀ d, g.child c j = some d → marks d = .done := by
    intro j hj d hd
    rcases hslots j hj d hd with hdone | ⟨-, hnone⟩
    · exact hdone
    · cases hnone
  unfold pushed
  split
  · rename_i d hd
    refine ⟨fun j hj => absurd hj (Nat.not_lt_zero j), fun j hj e he => ?_, hrest⟩
    rcases Nat.lt_succ_iff_lt_or_eq.mp hj with hlt | rfl
    · exact Or.inl (hdone j hlt e he)
    · exact Or.inr ⟨rfl, hd.symm.trans he⟩
  · rename_i hnone
    refine ⟨fun j hj e he => ?_, hrest⟩
    rcases Nat.lt_succ_iff_lt_or_eq.mp hj with hlt | rfl
    · exact Or.inl (hdone j hlt e he)
    · rw [hnone] at he
      cases he

theorem mem_pushed (c k : Nat) (stack : List Frame) :
    ∃ frame ∈ pushed g c k ++ stack, frame.1 = c := by
  refine ⟨(c, k + 1), List.mem_append_left stack ?_, rfl⟩
  unfold pushed
  split <;> simp

theorem Invariant.acc_of_walked {root c k : Nat} {marks : Nat → Mark} {stack : List Frame}
    (h : Invariant g root marks ((c, k) :: stack)) (hk : g.slots c ≤ k) :
    Acc (fun d c => g.Child c d) c := by
  refine Acc.intro c fun d hd => ?_
  obtain ⟨j, hj, hchild⟩ := hd
  rcases h.linked.1 j (Nat.lt_of_lt_of_le hj hk) d hchild with hdone | ⟨-, hnone⟩
  · exact h.wellFounded d hdone
  · cases hnone

theorem Invariant.push {root c k : Nat} {marks : Nat → Mark} {stack : List Frame}
    (h : Invariant g root marks ((c, k) :: stack)) :
    Invariant g root marks (pushed g c k ++ stack) where
  wellFounded := h.wellFounded
  linked := h.linked.push
  root := by
    refine h.root.imp_right fun ⟨frame, hmem, hroot⟩ => ?_
    rcases List.mem_cons.mp hmem with rfl | hmem
    · exact hroot ▸ mem_pushed _ k stack
    · exact ⟨frame, List.mem_append_right _ hmem, hroot⟩

theorem Invariant.pop {root c k : Nat} {marks : Nat → Mark} {stack : List Frame}
    (h : Invariant g root marks ((c, k) :: stack)) (hc : marks c = .done) :
    Invariant g root marks stack where
  wellFounded := h.wellFounded
  linked := h.linked.2.pop hc
  root := by
    rcases h.root with hroot | ⟨frame, hmem, hroot⟩
    · exact Or.inl hroot
    · rcases List.mem_cons.mp hmem with rfl | hmem
      · exact Or.inl (hroot ▸ hc)
      · exact Or.inr ⟨frame, hmem, hroot⟩

theorem Invariant.markOnPath {root c : Nat} {marks : Nat → Mark} {stack : List Frame}
    (h : Invariant g root marks stack) (hc : marks c ≠ .done) :
    Invariant g root (Function.update marks c .onPath) stack := by
  have hkeep : ∀ d, marks d = .done → Function.update marks c .onPath d = .done := by
    intro d hd
    have hdc : d ≠ c := by
      rintro rfl
      exact hc hd
    rw [Function.update_of_ne hdc, hd]
  refine ⟨fun d hd => ?_, h.linked.mono hkeep, h.root.imp_left (hkeep root)⟩
  by_cases hdc : d = c
  · rw [hdc, Function.update_self] at hd
    cases hd
  · rw [Function.update_of_ne hdc] at hd
    exact h.wellFounded d hd

theorem Invariant.markDone {root c : Nat} {marks : Nat → Mark} {stack : List Frame}
    (h : Invariant g root marks stack) (hacc : Acc (fun d c => g.Child c d) c) :
    Invariant g root (Function.update marks c .done) stack := by
  have hkeep : ∀ d, marks d = .done → Function.update marks c .done d = .done := by
    intro d hd
    by_cases hdc : d = c
    · rw [hdc, Function.update_self]
    · rw [Function.update_of_ne hdc, hd]
  refine ⟨fun d hd => ?_, h.linked.mono hkeep, h.root.imp_left (hkeep root)⟩
  by_cases hdc : d = c
  · exact hdc ▸ hacc
  · rw [Function.update_of_ne hdc] at hd
    exact h.wellFounded d hd

theorem walk_acc {root fuel : Nat} {marks marks' : Nat → Mark} {stack : List Frame}
    (h : Invariant g root marks stack) (hwalk : walk g fuel marks stack = .finished marks') :
    Acc (fun d c => g.Child c d) root := by
  induction fuel generalizing marks stack with
  | zero =>
      cases stack with
      | nil =>
          rcases h.root with hroot | ⟨frame, hmem, -⟩
          · exact h.wellFounded root hroot
          · cases hmem
      | cons frame stack => cases hwalk
  | succ fuel ih =>
      cases stack with
      | nil =>
          rcases h.root with hroot | ⟨frame, hmem, -⟩
          · exact h.wellFounded root hroot
          · cases hmem
      | cons frame stack =>
          obtain ⟨c, k⟩ := frame
          rw [walk] at hwalk
          split at hwalk
          · cases hwalk
          split at hwalk
          · rename_i hdone
            exact ih (h.pop hdone.2) hwalk
          rename_i hnotDone
          have hentered : Invariant g root
              (if k = 0 then Function.update marks c .onPath else marks) ((c, k) :: stack) := by
            split
            · rename_i hk
              exact h.markOnPath fun hdone => hnotDone ⟨hk, hdone⟩
            · exact h
          dsimp only at hwalk
          split at hwalk
          · exact ih hentered.push hwalk
          · rename_i hslots
            have hacc := hentered.acc_of_walked (Nat.le_of_not_lt hslots)
            exact ih ((hentered.markDone hacc).pop (Function.update_self c _ _)) hwalk

/-- A search from a single root that finishes: nothing reachable from the root lies on a
cycle. -/
theorem walk_root_acc {root fuel : Nat} {marks' : Nat → Mark}
    (h : walk g fuel (fun _ => .unseen) [(root, 0)] = .finished marks') :
    Acc (fun d c => g.Child c d) root := by
  refine walk_acc ⟨fun c hc => ?_, ?_, ?_⟩ h
  · cases hc
  · exact ⟨fun j hj => absurd hj (Nat.not_lt_zero j), trivial⟩
  · exact Or.inr ⟨(root, 0), List.mem_singleton.mpr rfl, rfl⟩

theorem not_transGen_of_acc {α : Type} {r : α → α → Prop} {a : α} (h : Acc r a) :
    ¬ Relation.TransGen r a a := by
  intro hcycle
  induction h with
  | intro a _ ih =>
      obtain ⟨b, hab, hba⟩ := Relation.TransGen.tail'_iff.mp hcycle
      exact ih b hba (Relation.TransGen.head' hba hab)

theorem nodup_of_isChain {α : Type} {r : α → α → Prop} {l : List α} (h : l.IsChain r)
    (hacyclic : ∀ a ∈ l, ¬ Relation.TransGen r a a) : l.Nodup := by
  have hpath : l.Pairwise (Relation.TransGen r) :=
    List.isChain_iff_pairwise.mp (h.imp fun _ _ => Relation.TransGen.single)
  refine hpath.imp_of_mem fun {a b} ha _ hab => ?_
  rintro rfl
  exact hacyclic a ha hab

def unseenCost (g : Graph) (n : Nat) (marks : Nat → Mark) : Nat :=
  ((List.range n).map fun c => if marks c = .unseen then 2 * g.slots c + 1 else 0).sum

def frameCost (g : Graph) (frame : Frame) : Nat :=
  if frame.2 = 0 then 1 else 2 * (g.slots frame.1 - frame.2) + 1

def cost (g : Graph) (n : Nat) (marks : Nat → Mark) (stack : List Frame) : Nat :=
  unseenCost g n marks + (stack.map (frameCost g)).sum

theorem sum_map_range_update {n c : Nat} (hc : c < n) (f f' : Nat → Nat)
    (h : ∀ d, d ≠ c → f' d = f d) :
    ((List.range n).map f').sum + f c = ((List.range n).map f).sum + f' c := by
  induction n with
  | zero => cases hc
  | succ n ih =>
      rw [List.range_succ, List.map_append, List.map_append, List.sum_append, List.sum_append,
        List.map_singleton, List.map_singleton, List.sum_singleton, List.sum_singleton]
      rcases Nat.lt_succ_iff_lt_or_eq.mp hc with hlt | rfl
      · have := ih hlt
        rw [h n (by omega)]
        omega
      · have hsame : (List.range c).map f' = (List.range c).map f :=
          List.map_congr_left fun d hd => h d (by have := List.mem_range.mp hd; omega)
        rw [hsame]
        omega

theorem unseenCost_enter {n c : Nat} {marks : Nat → Mark} (hc : c < n)
    (hunseen : marks c = .unseen) (m : Mark) (hm : m ≠ .unseen) :
    unseenCost g n (Function.update marks c m) + (2 * g.slots c + 1) = unseenCost g n marks := by
  have := sum_map_range_update hc
    (fun d => if marks d = .unseen then 2 * g.slots d + 1 else 0)
    (fun d => if Function.update marks c m d = .unseen then 2 * g.slots d + 1 else 0)
    fun d hd => by simp only [Function.update_of_ne hd]
  simp only [Function.update_self, hunseen, hm, if_true, if_false] at this
  exact this

theorem unseenCost_update_le {n : Nat} {marks : Nat → Mark} (c : Nat) (m : Mark)
    (hm : m ≠ .unseen) : unseenCost g n (Function.update marks c m) ≤ unseenCost g n marks := by
  refine List.sum_le_sum fun d _ => ?_
  by_cases hd : d = c
  · rw [hd, Function.update_self, if_neg hm]
    exact Nat.zero_le _
  · rw [Function.update_of_ne hd]

theorem pushed_cost (c k : Nat) :
    ((pushed g c k).map (frameCost g)).sum ≤ 2 * (g.slots c - (k + 1)) + 2 := by
  unfold pushed
  split <;> simp [frameCost]
  omega

theorem frameCost_pos (frame : Frame) : 0 < frameCost g frame := by
  unfold frameCost
  split <;> omega

theorem pushed_lt {n c k : Nat} {stack : List Frame}
    (hchild : ∀ c k d, g.child c k = some d → d < n)
    (hstack : ∀ frame ∈ (c, k) :: stack, frame.1 < n) :
    ∀ frame ∈ pushed g c k ++ stack, frame.1 < n := by
  have hc : c < n := hstack (c, k) List.mem_cons_self
  have hrest : ∀ frame ∈ stack, frame.1 < n := fun frame h =>
    hstack frame (List.mem_cons_of_mem _ h)
  intro frame hframe
  rcases List.mem_append.mp hframe with hmem | hmem
  · unfold pushed at hmem
    split at hmem
    · rename_i d hd
      rcases List.mem_cons.mp hmem with rfl | hmem
      · exact hchild c k d hd
      · rw [List.mem_singleton.mp hmem]
        exact hc
    · rw [List.mem_singleton.mp hmem]
      exact hc
  · exact hrest frame hmem

theorem walk_ne_outOfFuel {n fuel : Nat} {marks : Nat → Mark} {stack : List Frame}
    (hchild : ∀ c k d, g.child c k = some d → d < n) (hstack : ∀ frame ∈ stack, frame.1 < n)
    (hcost : cost g n marks stack ≤ fuel) : walk g fuel marks stack ≠ .outOfFuel := by
  induction fuel generalizing marks stack with
  | zero =>
      cases stack with
      | nil => exact Outcome.noConfusion
      | cons frame stack =>
          have := frameCost_pos (g := g) frame
          rw [cost, List.map_cons, List.sum_cons] at hcost
          omega
  | succ fuel ih =>
      cases stack with
      | nil => exact Outcome.noConfusion
      | cons frame stack =>
          obtain ⟨c, k⟩ := frame
          have hpos := frameCost_pos (g := g) (c, k)
          have hrest : ∀ frame ∈ stack, frame.1 < n := fun frame h =>
            hstack frame (List.mem_cons_of_mem _ h)
          have hpushed := pushed_lt hchild hstack
          have hpushedCost := pushed_cost (g := g) c k
          rw [cost, List.map_cons, List.sum_cons] at hcost
          rw [walk]
          split
          · exact Outcome.noConfusion
          rename_i hnotPath
          split
          · refine ih hrest ?_
            rw [cost]
            omega
          rename_i hnotDone
          by_cases hk : k = 0
          · subst hk
            have hunseen : marks c = .unseen := by
              cases hmark : marks c with
              | unseen => rfl
              | onPath => exact absurd ⟨rfl, hmark⟩ hnotPath
              | done => exact absurd ⟨rfl, hmark⟩ hnotDone
            have hc : c < n := hstack (c, 0) List.mem_cons_self
            have henter := unseenCost_enter (g := g) hc hunseen .onPath (by decide)
            have hone : frameCost g (c, 0) = 1 := rfl
            simp only [if_true]
            split
            · refine ih hpushed ?_
              rw [cost, List.map_append, List.sum_append]
              omega
            · refine ih hrest ?_
              have := @unseenCost_update_le g n (Function.update marks c .onPath) c .done
                (by decide)
              rw [cost]
              omega
          · have hframe : frameCost g (c, k) = 2 * (g.slots c - k) + 1 := if_neg hk
            simp only [hk, if_false]
            split
            · refine ih hpushed ?_
              rw [cost, List.map_append, List.sum_append]
              omega
            · refine ih hrest ?_
              have := @unseenCost_update_le g n marks c .done (by decide)
              rw [cost]
              omega

end Sevenz.Lib.DepthFirst
