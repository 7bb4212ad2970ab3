import Sevenz.Lib.Offsets

/-!
# Lists and their chunks

A list cut into chunks of one length is their concatenation.  Items of a given length take
consecutive chunks of one flat list.  `ChunksSum` says that each chunk adds up to its item's
total.  Chunks cut for the items always do; a list of the bare totals only does where no long
item is followed by a total that is not zero.
-/

namespace Sevenz.Lib

theorem toChunks_go_flatten {α : Type*} (n : Nat) (xs : List α) (chunk : Array α)
    (chunks : Array (List α)) :
    (List.toChunks.go n xs chunk chunks).flatten =
      chunks.toList.flatten ++ (chunk.toList ++ xs) := by
  induction xs generalizing chunk chunks with
  | nil => simp [List.toChunks.go]
  | cons x xs ih =>
      rw [List.toChunks.go]
      split <;> simp [ih]

theorem flatten_toChunks {α : Type*} (n : Nat) (xs : List α) : (xs.toChunks n).flatten = xs := by
  match n, xs with
  | 0, [] => rfl
  | _ + 1, [] => rfl
  | 0, x :: xs => simp [List.toChunks]
  | n + 1, x :: xs => simp [List.toChunks, toChunks_go_flatten]

def ChunksSum : List (Nat × Nat) → List Nat → Prop
  | [], _ => True
  | item :: items, xs =>
      (item.1 ≠ 0 → (xs.take item.1).sum = item.2) ∧ ChunksSum items (xs.drop item.1)

def totals (items : List (Nat × Nat)) : List Nat :=
  (items.filter fun item => item.1 ≠ 0).map Prod.snd

theorem totals_cons_of_zero {n total : Nat} {items : List (Nat × Nat)} (hn : n = 0) :
    totals ((n, total) :: items) = totals items := by
  simp [totals, hn]

theorem totals_cons_of_ne {n total : Nat} {items : List (Nat × Nat)} (hn : n ≠ 0) :
    totals ((n, total) :: items) = total :: totals items := by
  simp [totals, hn]

theorem chunksSum_iff {items : List (Nat × Nat)} {xs : List Nat} :
    ChunksSum items xs ↔ ∀ i item, items[i]? = some item → item.1 ≠ 0 →
      ((xs.drop (offset (items.map Prod.fst) i)).take item.1).sum = item.2 := by
  induction items generalizing xs with
  | nil => simp [ChunksSum]
  | cons head items ih =>
      rw [ChunksSum, ih]
      constructor
      · rintro ⟨hhead, hrest⟩ i item hi hne
        cases i with
        | zero =>
            cases hi
            rw [offset_zero, List.drop_zero]
            exact hhead hne
        | succ i =>
            rw [List.map_cons, offset_cons_succ, ← List.drop_drop]
            exact hrest i item hi hne
      · intro h
        refine ⟨fun hne => ?_, fun i item hi hne => ?_⟩
        · have := h 0 head rfl hne
          rwa [offset_zero, List.drop_zero] at this
        · have := h (i + 1) item hi hne
          rwa [List.map_cons, offset_cons_succ, ← List.drop_drop] at this

theorem chunksSum_flatten {items : List (Nat × Nat)} {chunks : List (List Nat)}
    (h : List.Forall₂ (fun item chunk => chunk.length = item.1 ∧
      (item.1 ≠ 0 → chunk.sum = item.2)) items chunks) :
    ChunksSum items chunks.flatten := by
  induction h with
  | nil => trivial
  | cons hd _ ih =>
      obtain ⟨hlength, hsum⟩ := hd
      rw [List.flatten_cons, ChunksSum, ← hlength, List.take_left, List.drop_left]
      exact ⟨fun hne => hsum (hlength ▸ hne), ih⟩

theorem take_add_forall {xs : List Nat} {d n : Nat} (hd : ∀ x ∈ xs.take d, x = 0)
    (hn : ∀ x ∈ (xs.drop d).take n, x = 0) : ∀ x ∈ xs.take (d + n), x = 0 := by
  intro x hx
  rw [List.take_add, List.mem_append] at hx
  rcases hx with hx | hx
  · exact hd x hx
  · exact hn x hx

/-- Once the chunks lag behind the totals, and every total passed over is zero, the rest of
the totals have to be zero too. -/
theorem chunksSum_drop_iff {items : List (Nat × Nat)} {z d : Nat} (hd : 0 < d)
    (hzero : ∀ x ∈ (totals items ++ List.replicate z 0).take d, x = 0) :
    ChunksSum items ((totals items ++ List.replicate z 0).drop d) ↔
      ∀ total ∈ totals items, total = 0 := by
  induction items generalizing d with
  | nil => simp [ChunksSum, totals]
  | cons item items ih =>
      obtain ⟨n, total⟩ := item
      rw [ChunksSum]
      by_cases hn : n = 0
      · rw [totals_cons_of_zero hn] at hzero ⊢
        simp only [hn, ne_eq, not_true_eq_false, false_implies, true_and, List.drop_zero]
        exact ih hd hzero
      · rw [totals_cons_of_ne hn] at hzero ⊢
        obtain ⟨d, rfl⟩ := Nat.exists_eq_succ_of_ne_zero (Nat.ne_of_gt hd)
        rw [List.cons_append, List.take_succ_cons] at hzero
        have htotal : total = 0 := hzero total List.mem_cons_self
        have hpassed : ∀ x ∈ (totals items ++ List.replicate z 0).take d, x = 0 :=
          fun x hx => hzero x (List.mem_cons_of_mem _ hx)
        rw [List.cons_append, List.drop_succ_cons, List.drop_drop]
        constructor
        · rintro ⟨hsum, hrest⟩
          have hchunk := List.sum_eq_zero_iff.mp ((hsum hn).trans htotal)
          have hall := (ih (by omega) (take_add_forall hpassed hchunk)).mp hrest
          intro x hx
          rcases List.mem_cons.mp hx with rfl | hx
          · exact htotal
          · exact hall x hx
        · intro hall
          have hflat : ∀ x ∈ totals items ++ List.replicate z 0, x = 0 := by
            intro x hx
            rcases List.mem_append.mp hx with hx | hx
            · exact hall x (List.mem_cons_of_mem _ hx)
            · exact List.eq_of_mem_replicate hx
          refine ⟨fun _ => ?_, (ih (by omega) fun x hx => hflat x (List.mem_of_mem_take hx)).mpr
            fun x hx => hall x (List.mem_cons_of_mem _ hx)⟩
          rw [htotal]
          exact List.sum_eq_zero fun x hx => hflat x (List.mem_of_mem_drop (List.mem_of_mem_take hx))

/-- The bare totals, with zeros to fill up, add up chunk by chunk exactly where every item
after one of two elements or more has nothing to add up to. -/
theorem chunksSum_totals_iff {items : List (Nat × Nat)} {z : Nat} :
    ChunksSum items (totals items ++ List.replicate z 0) ↔
      items.Pairwise fun a b => 2 ≤ a.1 → b.1 ≠ 0 → b.2 = 0 := by
  induction items with
  | nil => simp [ChunksSum]
  | cons item items ih =>
      obtain ⟨n, total⟩ := item
      rw [ChunksSum, List.pairwise_cons]
      match n with
      | 0 =>
          rw [totals_cons_of_zero rfl, List.drop_zero, ih]
          simp
      | 1 =>
          rw [totals_cons_of_ne Nat.one_ne_zero, List.cons_append, List.drop_succ_cons,
            List.drop_zero, ih]
          simp
      | n + 2 =>
          have hall : (∀ b ∈ items, b.1 ≠ 0 → b.2 = 0) ↔ ∀ x ∈ totals items, x = 0 := by
            simp only [totals, List.mem_map, List.mem_filter, decide_eq_true_eq]
            constructor
            · rintro h x ⟨b, ⟨hb, hne⟩, rfl⟩
              exact h b hb hne
            · exact fun h b hb hne => h b.2 ⟨b, ⟨hb, hne⟩, rfl⟩
          rw [totals_cons_of_ne (Nat.succ_ne_zero _), List.cons_append, List.drop_succ_cons,
            List.take_succ_cons, List.sum_cons]
          simp only [Nat.le_add_left, true_implies]
          rw [hall]
          constructor
          · rintro ⟨hsum, hrest⟩
            have hchunk := List.sum_eq_zero_iff.mp
              (Nat.add_left_cancel (hsum (Nat.succ_ne_zero _)) : _ = 0)
            have hzero := (chunksSum_drop_iff (Nat.succ_pos n) hchunk).mp hrest
            refine ⟨hzero, ?_⟩
            exact List.Pairwise.imp_of_mem (fun _ hb _ _ hne => hall.mpr hzero _ hb hne)
              (List.pairwise_of_forall fun _ _ => trivial)
          · rintro ⟨hzero, -⟩
            have hflat : ∀ x ∈ totals items ++ List.replicate z 0, x = 0 := by
              intro x hx
              rcases List.mem_append.mp hx with hx | hx
              · exact hzero x hx
              · exact List.eq_of_mem_replicate hx
            refine ⟨fun _ => ?_, (chunksSum_drop_iff (Nat.succ_pos n)
              fun x hx => hflat x (List.mem_of_mem_take hx)).mpr hzero⟩
            rw [List.sum_eq_zero fun x hx => hflat x (List.mem_of_mem_take hx), Nat.add_zero]

end Sevenz.Lib
