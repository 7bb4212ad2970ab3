import Mathlib.Data.List.Induction

/-!
# Runs of a step function

A machine takes labelled steps, and a run takes the steps of a list of labels in order.
-/

namespace Sevenz.Lib

variable {σ ι : Type*} {step : σ → ι → Option σ} {s : σ} {labels : List ι}

def run (step : σ → ι → Option σ) : σ → List ι → Option σ
  | s, [] => some s
  | s, label :: labels => (step s label).bind fun s' => run step s' labels

@[simp] theorem run_nil : run step s [] = some s := rfl

@[simp] theorem run_cons (label : ι) :
    run step s (label :: labels) = (step s label).bind fun s' => run step s' labels := rfl

theorem run_concat (label : ι) :
    run step s (labels ++ [label]) = (run step s labels).bind fun t => step t label := by
  induction labels generalizing s with
  | nil => simp
  | cons first labels ih =>
      simp only [List.cons_append, run_cons, Option.bind_assoc]
      congr 1
      funext s'
      exact ih

theorem run_append {more : List ι} :
    run step s (labels ++ more) = (run step s labels).bind fun t => run step t more := by
  induction labels generalizing s with
  | nil => rfl
  | cons first labels ih =>
      simp only [List.cons_append, run_cons, Option.bind_assoc]
      congr 1
      funext s'
      exact ih

theorem run_invariant {I : σ → Prop}
    (hkeep : ∀ s label s', step s label = some s' → I s → I s') {t : σ} (hinit : I s)
    (hrun : run step s labels = some t) : I t := by
  induction labels generalizing s with
  | nil =>
      cases hrun
      exact hinit
  | cons label labels ih =>
      rw [run_cons, Option.bind_eq_some_iff] at hrun
      obtain ⟨s', hstep, hrest⟩ := hrun
      exact ih (hkeep s label s' hstep hinit) hrest

theorem exists_run_of_acc {I P : σ → Prop}
    (hkeep : ∀ s label s', step s label = some s' → I s → I s')
    (hlive : ∀ s, I s → ¬ P s → ∃ label, (step s label).isSome) (hinit : I s)
    (hacc : Acc (fun s' s => ∃ label, step s label = some s') s) :
    ∃ labels t, run step s labels = some t ∧ P t := by
  induction hacc with
  | intro s _ ih =>
      by_cases hs : P s
      · exact ⟨[], s, rfl, hs⟩
      · obtain ⟨label, hlabel⟩ := hlive s hinit hs
        obtain ⟨s', hstep⟩ := Option.isSome_iff_exists.mp hlabel
        obtain ⟨labels, t, hrun, ht⟩ := ih s' ⟨label, hstep⟩ (hkeep s label s' hstep hinit)
        refine ⟨label :: labels, t, ?_, ht⟩
        rw [run_cons, hstep]
        exact hrun

def EveryStep (step : σ → ι → Option σ) (s : σ) (labels : List ι)
    (P : List ι → ι → σ → σ → Prop) : Prop :=
  ∀ before label after, labels = before ++ label :: after →
    ∀ t t', run step s before = some t → step t label = some t' → P before label t t'

namespace EveryStep

variable {P Q : List ι → ι → σ → σ → Prop}

theorem mono (h : EveryStep step s labels P)
    (hPQ : ∀ before label t t', run step s before = some t → step t label = some t' →
      P before label t t' → Q before label t t') : EveryStep step s labels Q := by
  intro before label after hlabels t t' hbefore hstep
  exact hPQ before label t t' hbefore hstep (h before label after hlabels t t' hbefore hstep)

theorem nil : EveryStep step s [] P := by
  intro before label after hlabels
  simp at hlabels

theorem cons {label : ι} {s' : σ} (hstep : step s label = some s') (hfirst : P [] label s s')
    (hrest : EveryStep step s' labels fun before => P (label :: before)) :
    EveryStep step s (label :: labels) P := by
  intro before next after hlabels t t' hbefore hnext
  cases before with
  | nil =>
      cases hlabels
      cases hbefore
      rw [hnext] at hstep
      cases hstep
      exact hfirst
  | cons first before =>
      cases hlabels
      rw [run_cons, hstep] at hbefore
      exact hrest before next after rfl t t' hbefore hnext

theorem append {more : List ι} {t : σ} (hrun : run step s labels = some t)
    (h : EveryStep step s labels P)
    (hmore : EveryStep step t more fun before => P (labels ++ before)) :
    EveryStep step s (labels ++ more) P := by
  intro before label after hlabels u u' hbefore hstep
  obtain ⟨between, rfl, hafter⟩ | ⟨between, rfl, hafter⟩ := List.append_eq_append_iff.mp hlabels
  · rw [run_append, hrun] at hbefore
    exact hmore between label after hafter u u' hbefore hstep
  · cases between with
    | nil =>
        rw [List.append_nil] at hrun hmore
        obtain rfl := Option.some.inj (hrun.symm.trans hbefore)
        have hlast : P (before ++ []) label t u' := hmore [] label after hafter.symm t u' rfl hstep
        rwa [List.append_nil] at hlast
    | cons next between =>
        cases hafter
        exact h before label between rfl u u' hbefore hstep

theorem invariant {I : List ι → σ → Prop} (hinit : I [] s)
    (hkeep : EveryStep step s labels fun before label t t' =>
      I before t → I (before ++ [label]) t')
    {before after : List ι} (hlabels : labels = before ++ after) {t : σ}
    (hrun : run step s before = some t) : I before t := by
  induction before using List.reverseRecOn generalizing after t with
  | nil =>
      cases hrun
      exact hinit
  | append_singleton before label ih =>
      rw [run_concat, Option.bind_eq_some_iff] at hrun
      obtain ⟨u, hbefore, hstep⟩ := hrun
      rw [List.append_assoc] at hlabels
      apply hkeep before label after hlabels u t hbefore hstep
      exact ih hlabels hbefore

theorem exists_of_mem (h : EveryStep step s labels P) {t : σ} (hrun : run step s labels = some t)
    {label : ι} (hmem : label ∈ labels) : ∃ before u u', P before label u u' := by
  obtain ⟨before, after, rfl⟩ := List.append_of_mem hmem
  rw [run_append, Option.bind_eq_some_iff] at hrun
  obtain ⟨u, hbefore, hrest⟩ := hrun
  rw [run_cons, Option.bind_eq_some_iff] at hrest
  obtain ⟨u', hstep, -⟩ := hrest
  exact ⟨before, u, u', h before label after rfl u u' hbefore hstep⟩

end EveryStep

end Sevenz.Lib
