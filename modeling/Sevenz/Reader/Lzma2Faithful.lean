import Sevenz.Reader.Lzma2Window

/-!
# Short reads, failing reads and lost output in `Lzma2MtReader`

A reader is faithful where its window holds what was delivered and not yet taken, every offer was
of delivered bytes, and every decoded byte was handed to the caller or waits for it.  One lemma
says of each part of a read what it keeps of this; a read as a whole keeps it if and only if no
inner read fails in it, and the decoder does not fail once there are bytes for the caller.
-/

namespace Sevenz

open Lib

namespace Lzma2Event

def bytesIn : Lzma2Event → List UInt8
  | delivered bytes => bytes
  | _ => []

def bytesTaken : Lzma2Event → List UInt8
  | fed offered taken => offered.take taken
  | _ => []

def bytesOut : Lzma2Event → List UInt8
  | drained pieces | drainFailed pieces => pieces.flatten
  | _ => []

def offered : Lzma2Event → Option (List UInt8)
  | fed offered _ | feedFailed offered => some offered
  | _ => none

def DecoderFailed : Lzma2Event → Prop
  | feedFailed _ | drainFailed _ => True
  | _ => False

instance : DecidablePred DecoderFailed := fun event =>
  match event with
  | feedFailed _ | drainFailed _ => .isTrue trivial
  | delivered _ | readFailed | fed _ _ | drained _ => .isFalse id

def Failed : Lzma2Event → Prop
  | readFailed | feedFailed _ | drainFailed _ => True
  | _ => False

def Plain : Lzma2Event → Prop
  | delivered _ | fed _ _ => True
  | drained pieces => pieces.flatten = []
  | _ => False

end Lzma2Event

inductive OffersDelivered : List Lzma2Event → Prop
  | nil : OffersDelivered []
  | snoc {log : List Lzma2Event} {event : Lzma2Event} (h : OffersDelivered log)
      (hoffer : ∀ bytes, event.offered = some bytes →
        log.flatMap Lzma2Event.bytesTaken ++ bytes <+: log.flatMap Lzma2Event.bytesIn) :
      OffersDelivered (log ++ [event])

/-- No inner read failed, and no call of the decoder failed once there were decoded bytes for the
caller. -/
def Undisturbed (events : List Lzma2Event) : Prop :=
  Lzma2Event.readFailed ∉ events ∧
    ((∃ event ∈ events, event.DecoderFailed) → events.flatMap Lzma2Event.bytesOut = [])

theorem OffersDelivered.append {log events : List Lzma2Event} (h : OffersDelivered log)
    (hnone : ∀ event ∈ events, event.offered = none) : OffersDelivered (log ++ events) := by
  induction events using List.reverseRecOn with
  | nil => rwa [List.append_nil]
  | append_singleton events event ih =>
      obtain ⟨hevents, hevent⟩ := List.forall_mem_append.mp hnone
      rw [← List.append_assoc]
      refine .snoc (ih hevents) fun bytes hoffered => ?_
      rw [List.forall_mem_singleton.mp hevent] at hoffered
      cases hoffered

instance : DecidablePred Undisturbed := fun _ => inferInstanceAs (Decidable (_ ∧ _))

namespace Lzma2Event.Plain

variable {event : Lzma2Event}

theorem bytesOut_eq_nil (h : event.Plain) : event.bytesOut = [] := by
  cases event with
  | delivered _ | fed _ _ => rfl
  | drained pieces => exact h
  | readFailed | feedFailed _ | drainFailed _ => exact h.elim

theorem ne_readFailed (h : event.Plain) : event ≠ .readFailed := by
  rintro rfl
  exact h

theorem not_failed (h : event.Plain) : ¬ event.Failed := by
  cases event with
  | delivered _ | fed _ _ | drained _ => exact id
  | readFailed | feedFailed _ | drainFailed _ => exact h.elim

theorem of_not_failed (h : ¬ event.Failed) (hout : event.bytesOut = []) : event.Plain := by
  cases event with
  | delivered _ | fed _ _ => trivial
  | drained pieces => exact hout
  | readFailed | feedFailed _ | drainFailed _ => exact (h trivial).elim

theorem not_decoderFailed (h : event.Plain) : ¬ event.DecoderFailed := by
  cases event with
  | delivered _ | fed _ _ | drained _ => exact id
  | readFailed | feedFailed _ | drainFailed _ => exact h.elim

end Lzma2Event.Plain

theorem Undisturbed.of_not_failed {events : List Lzma2Event}
    (h : ∀ event ∈ events, ¬ event.Failed) : Undisturbed events := by
  refine ⟨fun hmem => h _ hmem trivial, fun ⟨event, hmem, hfailed⟩ => (h event hmem ?_).elim⟩
  cases event with
  | feedFailed _ | drainFailed _ => trivial
  | delivered _ | readFailed | fed _ _ | drained _ => exact hfailed.elim

theorem Undisturbed.append_iff {events more : List Lzma2Event}
    (hplain : ∀ event ∈ events, event.Plain) : Undisturbed (events ++ more) ↔ Undisturbed more := by
  have hdecoded : events.flatMap Lzma2Event.bytesOut = [] :=
    List.flatMap_eq_nil_iff.mpr fun event hmem => (hplain event hmem).bytesOut_eq_nil
  have hread : Lzma2Event.readFailed ∈ events ++ more ↔ Lzma2Event.readFailed ∈ more := by
    rw [List.mem_append]
    exact or_iff_right fun hmem => (hplain _ hmem).ne_readFailed rfl
  have hfailed : (∃ event ∈ events ++ more, event.DecoderFailed) ↔
      ∃ event ∈ more, event.DecoderFailed := by
    constructor
    · rintro ⟨event, hmem, hfailed⟩
      cases List.mem_append.mp hmem with
      | inl hmem => exact ((hplain event hmem).not_decoderFailed hfailed).elim
      | inr hmem => exact ⟨event, hmem, hfailed⟩
    · rintro ⟨event, hmem, hfailed⟩
      exact ⟨event, List.mem_append_right _ hmem, hfailed⟩
  unfold Undisturbed
  rw [hread, hfailed, List.flatMap_append, hdecoded, List.nil_append]

namespace Lzma2MtStream

variable {σ δ κ : Type}

def held (stream : Lzma2MtStream σ δ κ) : List UInt8 := stream.out.flatten.drop stream.outPos

/-- The window holds the delivered bytes that were not taken, every offer was of delivered bytes,
and what was decoded was handed to the caller or waits for it. -/
structure Faithful (stream : Lzma2MtStream σ δ κ) (handed : List UInt8) : Prop where
  inPos_le : stream.inPos ≤ stream.inbuf.length
  window : stream.log.flatMap Lzma2Event.bytesIn =
    stream.log.flatMap Lzma2Event.bytesTaken ++ stream.inbuf.drop stream.inPos
  offers : OffersDelivered stream.log
  outPos_le : stream.outPos ≤ (stream.out.headD []).length
  output : stream.log.flatMap Lzma2Event.bytesOut = handed ++ stream.held

end Lzma2MtStream

theorem spill_flatten {rounds : Nat} {out : List (List UInt8)} (rest : List UInt8)
    (hrounds : rest.length < rounds) (hout : ∀ piece ∈ out, piece.length ≤ mtOutputChunk) :
    (spill rounds out rest).flatten = out.flatten ++ rest ∧
      ∀ piece ∈ spill rounds out rest, piece.length ≤ mtOutputChunk := by
  induction rounds generalizing out rest with
  | zero => exact absurd hrounds (Nat.not_lt_zero _)
  | succ rounds ih =>
      have hchunk : 0 < mtOutputChunk := Nat.two_pow_pos 20
      have htake (n : Nat) : (rest.take n).length ≤ n := List.length_take_le n rest
      unfold spill
      split
      · next hempty =>
          obtain rfl := List.isEmpty_iff.mp hempty
          exact ⟨(List.append_nil _).symm, hout⟩
      · next hne =>
          have hpos : 0 < rest.length :=
            List.length_pos_of_ne_nil fun hnil => hne (List.isEmpty_iff.mpr hnil)
          have hshort {n : Nat} (hn : 0 < n) : (rest.drop n).length < rounds := by
            rw [List.length_drop]
            omega
          split
          · next piece hlast =>
              split
              · have hnew : ∀ piece ∈ out ++ [rest.take mtOutputChunk],
                    piece.length ≤ mtOutputChunk := by
                  intro piece hpiece
                  cases List.mem_append.mp hpiece with
                  | inl hmem => exact hout piece hmem
                  | inr hmem =>
                      rw [List.mem_singleton.mp hmem]
                      exact htake _
                obtain ⟨hflatten, hpieces⟩ := ih _ (hshort hchunk) hnew
                refine ⟨?_, hpieces⟩
                rw [hflatten, List.flatten_concat, List.append_assoc, List.take_append_drop]
              · next hfull =>
                  obtain ⟨before, rfl⟩ := List.getLast?_eq_some_iff.mp hlast
                  have hpiece : piece.length < mtOutputChunk :=
                    Nat.lt_of_le_of_ne (hout piece List.mem_concat_self) hfull
                  have hnew : ∀ p ∈ (before ++ [piece]).dropLast ++
                      [piece ++ rest.take (mtOutputChunk - piece.length)],
                      p.length ≤ mtOutputChunk := by
                    intro p hp
                    rw [List.dropLast_concat] at hp
                    cases List.mem_append.mp hp with
                    | inl hmem => exact hout p (List.mem_append_left _ hmem)
                    | inr hmem =>
                        have := htake (mtOutputChunk - piece.length)
                        rw [List.mem_singleton.mp hmem, List.length_append]
                        omega
                  obtain ⟨hflatten, hpieces⟩ := ih _ (hshort (Nat.sub_pos_of_lt hpiece)) hnew
                  refine ⟨?_, hpieces⟩
                  rw [hflatten, List.dropLast_concat, List.flatten_concat, List.flatten_concat,
                    List.append_assoc, List.append_assoc, List.take_append_drop,
                    List.append_assoc]
          · next hnone =>
              obtain rfl := List.getLast?_eq_none_iff.mp hnone
              have hnew : ∀ piece ∈ [rest.take mtOutputChunk], piece.length ≤ mtOutputChunk := by
                intro piece hmem
                rw [List.mem_singleton.mp hmem]
                exact htake _
              obtain ⟨hflatten, hpieces⟩ := ih _ (hshort hchunk) hnew
              refine ⟨?_, hpieces⟩
              rw [hflatten, List.flatten_singleton, List.take_append_drop]
              rfl

theorem drainInto_eq {size : Nat} (pieces : List (List UInt8)) {direct : List UInt8}
    {out : List (List UInt8)} (hdirect : direct.length ≤ size)
    (hout : ∀ piece ∈ out, piece.length ≤ mtOutputChunk) :
    (drainInto size pieces (direct, out)).1 = (direct ++ pieces.flatten).take size ∧
      (drainInto size pieces (direct, out)).2.flatten =
        out.flatten ++ (direct ++ pieces.flatten).drop size := by
  induction pieces generalizing direct out with
  | nil =>
      rw [List.flatten_nil, List.append_nil, List.take_of_length_le hdirect,
        List.drop_of_length_le hdirect, List.append_nil]
      exact ⟨rfl, rfl⟩
  | cons bytes pieces ih =>
      obtain ⟨hspill, hpieces⟩ := spill_flatten (bytes.drop (size - direct.length))
        (Nat.lt_succ_self _) hout
      have hroom : (direct ++ bytes.take (size - direct.length)).length ≤ size := by
        rw [List.length_append, List.length_take]
        omega
      obtain ⟨hfirst, hsecond⟩ := ih hroom hpieces
      have hall : direct ++ (bytes :: pieces).flatten =
          direct ++ bytes.take (size - direct.length) ++
            (bytes.drop (size - direct.length) ++ pieces.flatten) := by
        rw [List.flatten_cons, List.append_assoc, ← List.append_assoc (bytes.take _),
          List.take_append_drop]
      rw [hspill] at hsecond
      unfold drainInto
      rw [hall, hfirst, hsecond]
      by_cases hrest : bytes.drop (size - direct.length) = []
      · rw [hrest, List.append_nil, List.nil_append]
        exact ⟨rfl, rfl⟩
      · have hlong : size - direct.length < bytes.length := by
          by_contra hle
          exact hrest (List.drop_eq_nil_of_le (Nat.not_lt.mp hle))
        have hfull : (direct ++ bytes.take (size - direct.length)).length = size := by
          rw [List.length_append, List.length_take]
          omega
        rw [List.take_left' hfull, List.take_left' hfull, List.drop_left' hfull,
          List.drop_left' hfull, List.append_assoc]
        exact ⟨rfl, rfl⟩

namespace Lzma2MtStream

variable {σ δ κ : Type} {parts : Lzma2Parts σ δ κ} {stream stream' : Lzma2MtStream σ δ κ}
  {handed : List UInt8}

/-- How a part of a read ends that decodes nothing: nothing failed, or the decoder failed and all
is as it was, or an inner read failed and the window is longer than what was delivered. -/
inductive Pumped {α : Type} (stream : Lzma2MtStream σ δ κ) (handed : List UInt8) :
    Result α → Lzma2MtStream σ δ κ → Prop
  | ok {a : α} {stream' : Lzma2MtStream σ δ κ} (events : List Lzma2Event)
      (hlog : stream'.log = stream.log ++ events) (hplain : ∀ event ∈ events, event.Plain)
      (hfaithful : stream'.Faithful handed) (hout : stream'.out = stream.out) :
      Pumped stream handed (.ok a) stream'
  | decoder {e : Error} {stream' : Lzma2MtStream σ δ κ} (events : List Lzma2Event)
      (offered : List UInt8) (hlog : stream'.log = stream.log ++ events ++ [.feedFailed offered])
      (hplain : ∀ event ∈ events, event.Plain) (hfaithful : stream'.Faithful handed) :
      Pumped stream handed (.error (.error e)) stream'
  | inner {e : Error} {stream' : Lzma2MtStream σ δ κ} (events : List Lzma2Event)
      (hlog : stream'.log = stream.log ++ events ++ [.readFailed])
      (hspoiled : ∀ handed, ¬ stream'.Faithful handed) :
      Pumped stream handed (.error (.error e)) stream'
  | stopped {fault : Fault} {stream' : Lzma2MtStream σ δ κ} (hfault : ∀ e, fault ≠ .error e) :
      Pumped stream handed (.error fault) stream'

theorem Pumped.after {α : Type} {middle : Lzma2MtStream σ δ κ} {events : List Lzma2Event}
    {answer : Result α} (h : Pumped middle handed answer stream')
    (hlog : middle.log = stream.log ++ events) (hplain : ∀ event ∈ events, event.Plain)
    (hout : middle.out = stream.out) : Pumped stream handed answer stream' := by
  cases h with
  | ok more hlog' hplain' hfaithful hout' =>
      refine .ok (events ++ more) ?_ (List.forall_mem_append.mpr ⟨hplain, hplain'⟩) hfaithful
        (hout'.trans hout)
      rw [hlog', hlog, List.append_assoc]
  | decoder more offered hlog' hplain' hfaithful =>
      refine .decoder (events ++ more) offered ?_ (List.forall_mem_append.mpr ⟨hplain, hplain'⟩)
        hfaithful
      rw [hlog', hlog, List.append_assoc stream.log]
  | inner more hlog' hspoiled =>
      refine .inner (events ++ more) ?_ hspoiled
      rw [hlog', hlog, List.append_assoc stream.log]
  | stopped hfault => exact .stopped hfault

theorem Pumped.of_error {α β : Type} {fault : Fault}
    (h : Pumped stream handed (.error fault : Result α) stream') :
    Pumped stream handed (.error fault : Result β) stream' := by
  cases h with
  | decoder events offered hlog hplain hfaithful =>
      exact .decoder events offered hlog hplain hfaithful
  | inner events hlog hspoiled => exact .inner events hlog hspoiled
  | stopped hfault => exact .stopped hfault

theorem compact_faithful (h : stream.Faithful handed) (hcompact : stream.compact = .ok stream') :
    stream'.Faithful handed ∧ stream'.log = stream.log ∧ stream'.out = stream.out := by
  unfold compact at hcompact
  split at hcompact
  · cases hcompact
    exact ⟨h, rfl, rfl⟩
  · split at hcompact
    · cases hcompact
    · cases hcompact
      exact ⟨⟨Nat.zero_le _, h.window, h.offers, h.outPos_le, h.output⟩, rfl, rfl⟩

theorem fill_events {rounds room : Nat} {got got' : List UInt8} {s s' : σ}
    {log log' : List Lzma2Event} {failed : Option IoError} (hrounds : room ≤ rounds)
    (h : fill parts rounds room got s log = (failed, got', s', log')) :
    ∃ events more, log' = log ++ events ++ (if failed.isSome then [.readFailed] else []) ∧
      got' = got ++ more ∧ (∀ event ∈ events, ∃ bytes, event = .delivered bytes) ∧
      events.flatMap Lzma2Event.bytesIn = more ∧ (failed.isSome → more.length < room) := by
  induction rounds generalizing room got s log with
  | zero =>
      cases h
      exact ⟨[], [], by simp, by simp, by simp, rfl, by simp⟩
  | succ rounds ih =>
      unfold fill at h
      split at h
      · cases h
        exact ⟨[], [], by simp, by simp, by simp, rfl, by simp⟩
      · next hroom =>
          have hpos := Nat.pos_of_ne_zero hroom
          split at h
          · cases h
            exact ⟨[], [], by simp, by simp, by simp, rfl, fun _ => hpos⟩
          · cases h
            exact ⟨[.delivered []], [], by simp, by simp, by simp, rfl, by simp⟩
          · next b bytes s₁ hread =>
              have hle : bytes.length + 1 ≤ room :=
                parts.input_le room s (b :: bytes) (by rw [hread])
              obtain ⟨events, more, hlog, hgot, hdelivered, hmore, hshort⟩ := ih (by omega) h
              refine ⟨.delivered (b :: bytes) :: events, b :: bytes ++ more, ?_, ?_, ?_, ?_, ?_⟩
              · rw [hlog]
                simp
              · rw [hgot, List.append_assoc]
              · exact List.forall_mem_cons.mpr ⟨⟨_, rfl⟩, hdelivered⟩
              · rw [List.flatMap_cons, hmore]
                rfl
              · intro hfailed
                have := hshort hfailed
                rw [List.length_append, List.length_cons]
                omega

theorem delivered_events {events : List Lzma2Event}
    (h : ∀ event ∈ events, ∃ bytes, event = .delivered bytes) :
    events.flatMap Lzma2Event.bytesTaken = [] ∧ events.flatMap Lzma2Event.bytesOut = [] ∧
      (∀ event ∈ events, event.Plain) ∧ ∀ event ∈ events, event.offered = none := by
  refine ⟨List.flatMap_eq_nil_iff.mpr ?_, List.flatMap_eq_nil_iff.mpr ?_, ?_, ?_⟩
  all_goals
    intro event hevent
    obtain ⟨bytes, rfl⟩ := h event hevent
  · rfl
  · rfl
  · trivial
  · rfl

theorem scanAhead_faithful (h : stream.Faithful handed)
    (hscan : stream.scanAhead parts = .ok stream') :
    stream'.Faithful handed ∧ stream'.log = stream.log ∧ stream'.out = stream.out := by
  unfold scanAhead at hscan
  split at hscan
  · cases hscan
    exact ⟨⟨h.inPos_le, h.window, h.offers, h.outPos_le, h.output⟩, rfl, rfl⟩
  · split at hscan
    · cases hscan
    · split at hscan
      · cases hscan
        exact ⟨⟨h.inPos_le, h.window, h.offers, h.outPos_le, h.output⟩, rfl, rfl⟩
      · cases hscan
        exact ⟨⟨h.inPos_le, h.window, h.offers, h.outPos_le, h.output⟩, rfl, rfl⟩

theorem scanAhead_error {fault : Fault} (hscan : stream.scanAhead parts = .error fault) :
    ∀ e, fault ≠ .error e := by
  unfold scanAhead at hscan
  split at hscan
  · cases hscan
  · split at hscan
    · cases hscan
      nofun
    · split at hscan
      · cases hscan
      · cases hscan

theorem compact_error {fault : Fault} (hcompact : stream.compact = .error fault) :
    ∀ e, fault ≠ .error e := by
  unfold compact at hcompact
  split at hcompact
  · cases hcompact
  · split at hcompact
    · cases hcompact
      nofun
    · cases hcompact

variable (parts) in
theorem refill_pumped (h : stream.Faithful handed) :
    Pumped stream handed (stream.refill parts).1 (stream.refill parts).2 := by
  unfold refill
  cases hcompact : stream.compact with
  | error fault => exact .stopped (compact_error hcompact)
  | ok compacted =>
      obtain ⟨hc, hlogc, houtc⟩ := compact_faithful h hcompact
      dsimp only
      cases hfill : fill parts mtInputChunk mtInputChunk [] compacted.input compacted.log with
      | mk failed rest =>
          obtain ⟨got, input, log⟩ := rest
          obtain ⟨events, more, hlog, hgot, hdelivered, hmore, hshort⟩ :=
            fill_events (Nat.le_refl _) hfill
          rw [List.nil_append] at hgot
          subst hgot
          obtain ⟨htaken, hdecoded, hplain, hnone⟩ := delivered_events hdelivered
          dsimp only
          cases failed with
          | some e =>
              refine .inner events (by rw [hlog, hlogc]; rfl) ?_
              rintro handed' ⟨hle', hwindow', -⟩
              have hmore_lt := hshort rfl
              have hlengths := congrArg List.length hwindow'
              have hlengths' := congrArg List.length hc.window
              have hle := hc.inPos_le
              dsimp only at hlengths
              rw [hlog] at hlengths
              simp only [List.flatMap_append, List.length_append, List.length_drop, htaken, hmore,
                List.length_replicate] at hlengths hlengths'
              have hlast : ([Lzma2Event.readFailed].flatMap Lzma2Event.bytesIn).length = 0 := rfl
              have hlast' : ([Lzma2Event.readFailed].flatMap Lzma2Event.bytesTaken).length = 0 :=
                rfl
              simp only [Option.isSome_some, if_true, hlast, hlast', List.length_nil] at hlengths
              omega
          | none =>
              rw [Option.isSome_none, if_neg Bool.false_ne_true, List.append_nil] at hlog
              have hfilled : Faithful
                  { compacted with inbuf := compacted.inbuf ++ got, input, log } handed := by
                subst hlog
                constructor
                · exact hc.inPos_le.trans (by simp)
                · dsimp only
                  rw [List.flatMap_append, List.flatMap_append, htaken, List.append_nil, hmore,
                    hc.window, List.drop_append_of_le_length hc.inPos_le, List.append_assoc]
                · exact hc.offers.append hnone
                · exact hc.outPos_le
                · dsimp only
                  rw [List.flatMap_append, hdecoded, List.append_nil]
                  exact hc.output
              rw [hlogc] at hlog
              dsimp only
              split
              · exact .ok events hlog hplain ⟨hfilled.inPos_le, hfilled.window, hfilled.offers,
                  hfilled.outPos_le, hfilled.output⟩ houtc
              · split
                · next fault hscan => exact .stopped (scanAhead_error hscan)
                · next scanned hscan =>
                    obtain ⟨hscanned, hlogs, houts⟩ := scanAhead_faithful hfilled hscan
                    exact .ok events (hlogs.trans hlog) hplain hscanned (houts.trans houtc)

theorem pumpMove_offer {wantRuns runsAtStart upTo : Nat} {fed chasing : Bool}
    (h : stream.pumpMove parts wantRuns runsAtStart fed = .offer chasing upTo) :
    stream.inPos < upTo ∧ upTo ≤ stream.inbuf.length := by
  have hchunk : 0 < mtInputChunk := Nat.two_pow_pos 20
  unfold pumpMove at h
  dsimp only at h
  split at h
  · cases h
  · split at h
    · cases h
    · split at h
      · next hlt =>
          cases h
          exact ⟨hlt, Nat.min_le_left _ _⟩
      · split at h
        · cases h
        · split at h
          · next hlt =>
              cases h
              exact ⟨Nat.lt_min.mpr ⟨hlt.2, Nat.lt_add_of_pos_right hchunk⟩, Nat.min_le_left _ _⟩
          · cases h

variable (parts) in
theorem offer_pumped (h : stream.Faithful handed) {upTo : Nat}
    (hupTo : upTo ≤ stream.inbuf.length) :
    Pumped stream handed (stream.offer parts upTo).1 (stream.offer parts upTo).2 := by
  obtain ⟨offered, hoffered⟩ : ∃ offered, offered = (stream.inbuf.take upTo).drop stream.inPos :=
    ⟨_, rfl⟩
  have htake : offered = (stream.inbuf.drop stream.inPos).take (upTo - stream.inPos) := by
    rw [hoffered, List.drop_take]
  have hprefix : stream.log.flatMap Lzma2Event.bytesTaken ++ offered <+:
      stream.log.flatMap Lzma2Event.bytesIn := by
    rw [h.window, htake]
    exact (List.prefix_append_right_inj _).mpr (List.take_prefix _ _)
  unfold offer
  rw [← hoffered]
  dsimp only
  cases hfeed : parts.feed offered stream.decoder with
  | mk answer decoder =>
      cases answer with
      | error e =>
          refine .decoder [] offered (by simp) (List.forall_mem_nil _) ⟨h.inPos_le, ?_, ?_,
            h.outPos_le, ?_⟩
          · simpa [Lzma2Event.bytesIn, Lzma2Event.bytesTaken] using h.window
          · refine h.offers.snoc fun bytes hbytes => ?_
            cases hbytes
            exact hprefix
          · simpa [Lzma2Event.bytesOut, held] using h.output
      | ok taken =>
          have hle := parts.feed_le offered stream.decoder taken (by rw [hfeed])
          have hlength : offered.length = upTo - stream.inPos := by
            rw [hoffered, List.length_drop, List.length_take, Nat.min_eq_left hupTo]
          refine .ok [.fed offered taken] rfl (by simp [Lzma2Event.Plain])
            ⟨?_, ?_, ?_, h.outPos_le, ?_⟩ rfl
          · dsimp only
            have := h.inPos_le
            omega
          · dsimp only
            rw [List.flatMap_append, List.flatMap_append, h.window]
            have htaken : offered.take taken = (stream.inbuf.drop stream.inPos).take taken := by
              rw [htake, List.take_take, Nat.min_eq_left (hlength ▸ hle)]
            simp only [List.flatMap_singleton, Lzma2Event.bytesIn, Lzma2Event.bytesTaken,
              List.append_nil, List.append_assoc]
            rw [htaken, ← List.drop_drop, List.take_append_drop]
          · refine h.offers.snoc fun bytes hbytes => ?_
            cases hbytes
            exact hprefix
          · simpa [Lzma2Event.bytesOut, held] using h.output

theorem pumpLoop_pumped {wantRuns runsAtStart rounds : Nat} {fed : Bool}
    (h : stream.Faithful handed) :
    Pumped stream handed (pumpLoop parts wantRuns runsAtStart rounds fed stream).1
      (pumpLoop parts wantRuns runsAtStart rounds fed stream).2 := by
  induction rounds generalizing stream fed with
  | zero => exact .stopped nofun
  | succ rounds ih =>
      unfold pumpLoop
      split
      · exact .ok [] (List.append_nil _).symm (List.forall_mem_nil _) h rfl
      · have hrefill := refill_pumped parts h
        split
        · next hanswer =>
            rw [hanswer] at hrefill
            exact hrefill.of_error
        · next hanswer =>
            rw [hanswer] at hrefill
            cases hrefill with
            | ok events hlog hplain hfaithful hout => exact (ih hfaithful).after hlog hplain hout
      · next chasing upTo hmove =>
          have hchasing : Faithful { stream with chasing } handed :=
            ⟨h.inPos_le, h.window, h.offers, h.outPos_le, h.output⟩
          have hoffer := offer_pumped parts hchasing (pumpMove_offer hmove).2
          split
          · next hanswer =>
              rw [hanswer] at hoffer
              exact hoffer.of_error.after (List.append_nil _).symm (List.forall_mem_nil _) rfl
          · next hanswer =>
              rw [hanswer] at hoffer
              cases hoffer with
              | ok events hlog hplain hfaithful hout =>
                  dsimp only
                  split
                  · exact .ok events hlog hplain hfaithful hout
                  · exact (ih hfaithful).after hlog hplain hout

variable (parts) in
theorem pumpInput_pumped (fuel wantRuns : Nat) (h : stream.Faithful handed) :
    Pumped stream handed (stream.pumpInput parts fuel wantRuns).1
      (stream.pumpInput parts fuel wantRuns).2 :=
  pumpLoop_pumped h

variable (parts) in
theorem keepBacklog_pumped (fuel : Nat) (h : stream.Faithful handed) :
    Pumped stream handed ((stream.syncThreads parts).keepBacklog parts fuel).1
      ((stream.syncThreads parts).keepBacklog parts fuel).2 := by
  obtain ⟨hsync, hlog, hout⟩ : (stream.syncThreads parts).Faithful handed ∧
      (stream.syncThreads parts).log = stream.log ∧
        (stream.syncThreads parts).out = stream.out := by
    unfold syncThreads
    dsimp only
    split
    · exact ⟨⟨h.inPos_le, h.window, h.offers, h.outPos_le, h.output⟩, rfl, rfl⟩
    · exact ⟨⟨h.inPos_le, h.window, h.offers, h.outPos_le, h.output⟩, rfl, rfl⟩
  have hlog' : (stream.syncThreads parts).log = stream.log ++ [] := by rw [hlog, List.append_nil]
  refine Pumped.after ?_ hlog' (List.forall_mem_nil _) hout
  unfold keepBacklog
  dsimp only
  split
  · exact pumpInput_pumped parts _ _ hsync
  · exact .ok [] (List.append_nil _).symm (List.forall_mem_nil _) hsync rfl

theorem Faithful.outPos_eq_zero (h : stream.Faithful handed) (hout : stream.out = []) :
    stream.outPos = 0 := by
  have := h.outPos_le
  rw [hout] at this
  exact Nat.le_zero.mp this

def drained (size : Nat) (pieces : List (List UInt8)) (decoder : δ) (event : Lzma2Event)
    (stream : Lzma2MtStream σ δ κ) : Lzma2MtStream σ δ κ :=
  { stream with
    decoder, out := (drainInto size pieces ([], stream.out)).2, log := stream.log ++ [event] }

theorem drain_faithful (h : stream.Faithful handed) (hout : stream.out = []) (size : Nat)
    {pieces : List (List UInt8)} (decoder : δ) {event : Lzma2Event}
    (hevent : event = .drained pieces ∨ event = .drainFailed pieces) :
    (stream.drained size pieces decoder event).Faithful
      (handed ++ pieces.flatten.take size) := by
  have hempty : ([] : List UInt8).length ≤ size := Nat.zero_le size
  obtain ⟨-, hpieces⟩ := drainInto_eq pieces hempty (List.forall_mem_nil _)
  have hpos := h.outPos_eq_zero hout
  have hheld : stream.held = [] := by
    unfold held
    rw [hout, List.flatten_nil, List.drop_nil]
  have hnone : event.offered = none ∧ event.bytesIn = [] ∧ event.bytesTaken = [] ∧
      event.bytesOut = pieces.flatten := by
    cases hevent with
    | inl hdrained => subst hdrained; exact ⟨rfl, rfl, rfl, rfl⟩
    | inr hfailed => subst hfailed; exact ⟨rfl, rfl, rfl, rfl⟩
  obtain ⟨hoffered, hin, htaken, hdecoded⟩ := hnone
  unfold drained
  constructor
  · exact h.inPos_le
  · dsimp only
    rw [List.flatMap_append, List.flatMap_append, List.flatMap_singleton, List.flatMap_singleton,
      hin, htaken, List.append_nil, List.append_nil]
    exact h.window
  · exact h.offers.append (List.forall_mem_singleton.mpr hoffered)
  · dsimp only
    rw [hpos]
    exact Nat.zero_le _
  · dsimp only [held]
    rw [List.flatMap_append, List.flatMap_singleton, hdecoded, h.output, hheld, hpos,
      List.append_nil, List.drop_zero, hout, hpieces, List.flatten_nil, List.nil_append,
      List.nil_append, List.append_assoc, List.take_append_drop]

theorem drain_cases (parts : Lzma2Parts σ δ κ) (stream : Lzma2MtStream σ δ κ) (size : Nat) :
    ∃ pieces decoder,
      (∃ e, stream.drain parts size =
        (.error (.error e), stream.drained size pieces decoder (.drainFailed pieces))) ∨
      ∃ status, stream.drain parts size =
        (.ok ((drainInto size pieces ([], stream.out)).1, status),
          stream.drained size pieces decoder (.drained pieces)) := by
  unfold drain
  rcases parts.drainUpto size stream.decoder with ⟨pieces, status, decoder⟩
  cases status with
  | error e => exact ⟨pieces, decoder, .inl ⟨.ofIo e, rfl⟩⟩
  | ok status => exact ⟨pieces, decoder, .inr ⟨status, rfl⟩⟩

variable (parts) in
theorem afterDrain_pumped (fuel : Nat) (status : DrainStatus) (toldTheEnd : Bool)
    (direct : List UInt8) (h : stream.Faithful handed) :
    Pumped stream handed (stream.afterDrain parts fuel status toldTheEnd direct).1
      (stream.afterDrain parts fuel status toldTheEnd direct).2 := by
  unfold afterDrain
  split
  · exact .ok [] (List.append_nil _).symm (List.forall_mem_nil _)
      ⟨h.inPos_le, h.window, h.offers, h.outPos_le, h.output⟩ rfl
  · exact .ok [] (List.append_nil _).symm (List.forall_mem_nil _) h rfl
  · have hpump := pumpInput_pumped parts fuel (max (stream.backlogWanted parts) 1) h
    split
    · next hanswer =>
        rw [hanswer] at hpump
        exact hpump.of_error
    · next hanswer =>
        rw [hanswer] at hpump
        cases hpump with
        | ok events hlog hplain hfaithful hout => exact .ok events hlog hplain hfaithful hout

def Returned : Result (List UInt8) → Prop
  | .ok _ | .error (.error _) => True
  | .error (.panic _) | .error .outOfFuel => False

instance : DecidablePred Returned := fun answer =>
  match answer with
  | .ok _ | .error (.error _) => .isTrue trivial
  | .error (.panic _) | .error .outOfFuel => .isFalse id

theorem Returned.exists_eq {fault : Fault} (h : Returned (.error fault)) :
    ∃ e, fault = .error e := by
  cases fault with
  | error e => exact ⟨e, rfl⟩
  | panic _ | outOfFuel => exact h.elim

theorem Faithful.handed_eq {handed' : List UInt8} (h : stream.Faithful handed)
    (h' : stream.Faithful handed') : handed = handed' :=
  List.append_cancel_right (h.output.symm.trans h'.output)

theorem handOn_faithful (h : stream.Faithful handed) {front : List UInt8}
    {rest : List (List UInt8)} (hout : stream.out = front :: rest) {n : Nat}
    (hn : n ≤ front.length - stream.outPos) :
    Faithful { stream with outPos := stream.outPos + n }
      (handed ++ (front.drop stream.outPos).take n) := by
  have hle : stream.outPos ≤ front.length := by
    have := h.outPos_le
    rwa [hout] at this
  refine ⟨h.inPos_le, h.window, h.offers, ?_, ?_⟩
  · dsimp only
    rw [hout, List.headD_cons]
    omega
  · have houtput := h.output
    dsimp only [held] at houtput ⊢
    rw [houtput, hout, List.flatten_cons, List.drop_append_of_le_length hle,
      List.drop_append_of_le_length (by omega), ← List.drop_drop, List.append_assoc,
      ← List.append_assoc (List.take _ _), List.take_append_drop]

theorem pop_faithful (h : stream.Faithful handed) {front : List UInt8} {rest : List (List UInt8)}
    (hout : stream.out = front :: rest) (hdone : ¬ stream.outPos < front.length) :
    Faithful { stream with out := rest, outPos := 0 } handed := by
  have hpos : stream.outPos = front.length := by
    have := h.outPos_le
    rw [hout, List.headD_cons] at this
    omega
  refine ⟨h.inPos_le, h.window, h.offers, Nat.zero_le _, ?_⟩
  have houtput := h.output
  dsimp only [held] at houtput ⊢
  rw [houtput, hout, List.flatten_cons, List.drop_left' hpos.symm, List.drop_zero]

/-- Behind whatever was decoded before, a part of a read that decodes nothing ends the read with
an error. -/
theorem Pumped.faithful_iff {α : Type} {fault : Fault} {before : List Lzma2Event}
    {direct decoded : List UInt8} {start : Lzma2MtStream σ δ κ}
    (h : Pumped stream (handed ++ direct) (.error fault : Result α) stream') {e : Error}
    (he : fault = .error e) (hlog : stream.log = start.log ++ before)
    (hread : Lzma2Event.readFailed ∉ before)
    (hdecoded : before.flatMap Lzma2Event.bytesOut = decoded)
    (hdirect : direct = [] ↔ decoded = []) :
    ∃ events, stream'.log = start.log ++ events ∧
      (stream'.Faithful handed ↔ Undisturbed events) := by
  cases h with
  | decoder events offered hlog' hplain hfaithful =>
      refine ⟨before ++ (events ++ [.feedFailed offered]), ?_, ?_⟩
      · rw [hlog', hlog]
        simp
      · have hout : (before ++ (events ++ [Lzma2Event.feedFailed offered])).flatMap
            Lzma2Event.bytesOut = decoded := by
          have hevents : events.flatMap Lzma2Event.bytesOut = [] :=
            List.flatMap_eq_nil_iff.mpr fun event hmem => (hplain event hmem).bytesOut_eq_nil
          rw [List.flatMap_append, List.flatMap_append, hdecoded, hevents, List.nil_append]
          exact List.append_nil decoded
        constructor
        · intro hf
          have hnil := hdirect.mp (List.self_eq_append_right.mp (hf.handed_eq hfaithful))
          refine ⟨?_, fun _ => hout.trans hnil⟩
          rintro hmem
          cases List.mem_append.mp hmem with
          | inl hmem => exact hread hmem
          | inr hmem =>
              cases List.mem_append.mp hmem with
              | inl hmem => exact (hplain _ hmem).ne_readFailed rfl
              | inr hmem => cases List.mem_singleton.mp hmem
        · rintro ⟨-, hfailed⟩
          have hnil := hfailed ⟨Lzma2Event.feedFailed offered, by simp, trivial⟩
          rw [hout] at hnil
          rw [hdirect.mpr hnil, List.append_nil] at hfaithful
          exact hfaithful
  | inner events hlog' hspoiled =>
      refine ⟨before ++ (events ++ [.readFailed]), ?_, fun hf => (hspoiled handed hf).elim, ?_⟩
      · rw [hlog', hlog]
        simp
      · rintro ⟨hnone, -⟩
        exact (hnone (by simp)).elim
  | stopped hfault => exact absurd he (hfault e)

inductive Drained (stream : Lzma2MtStream σ δ κ) (handed : List UInt8) :
    Result (List UInt8 × Bool) → Lzma2MtStream σ δ κ → Prop
  | ok {direct decoded : List UInt8} {ended : Bool} {stream' : Lzma2MtStream σ δ κ}
      (events : List Lzma2Event) (hlog : stream'.log = stream.log ++ events)
      (hgood : ∀ event ∈ events, ¬ event.Failed)
      (hdecoded : events.flatMap Lzma2Event.bytesOut = decoded)
      (hdirect : direct = [] ↔ decoded = []) (hended : ended = true → direct = [])
      (hfaithful : stream'.Faithful (handed ++ direct)) :
      Drained stream handed (.ok (direct, ended)) stream'
  | failed {e : Error} {stream' : Lzma2MtStream σ δ κ} (events : List Lzma2Event)
      (hlog : stream'.log = stream.log ++ events)
      (hiff : stream'.Faithful handed ↔ Undisturbed events) :
      Drained stream handed (.error (.error e)) stream'
  | stopped {fault : Fault} {stream' : Lzma2MtStream σ δ κ} (hfault : ∀ e, fault ≠ .error e) :
      Drained stream handed (.error fault) stream'

theorem afterDrain_ended {fuel : Nat} {status : DrainStatus} {toldTheEnd : Bool}
    {direct : List UInt8}
    (h : stream.afterDrain parts fuel status toldTheEnd direct = (.ok true, stream')) :
    direct = [] := by
  unfold afterDrain at h
  split at h
  · cases h
  · cases h
  · split at h
    · cases h
    · have hended := Except.ok.inj (Prod.mk.inj h).1
      rw [Bool.and_eq_true, Bool.and_eq_true] at hended
      exact List.isEmpty_iff.mp hended.1.2

variable (parts) in
theorem drainOnce_drained (fuel : Nat) (h : stream.Faithful handed) (hout : stream.out = [])
    {size : Nat} (hsize : 0 < size) :
    Drained stream handed (stream.drainOnce parts fuel size).1
      (stream.drainOnce parts fuel size).2 := by
  obtain ⟨pieces, decoder, hdrain⟩ := drain_cases parts stream size
  have hdirect : (drainInto size pieces ([], stream.out)).1 = pieces.flatten.take size := by
    rw [hout]
    exact (drainInto_eq pieces (Nat.zero_le size) (List.forall_mem_nil _)).1
  have hnil : pieces.flatten.take size = [] ↔ pieces.flatten = [] := by
    rw [List.take_eq_nil_iff]
    exact or_iff_right (Nat.ne_of_gt hsize)
  unfold drainOnce
  cases hdrain with
  | inl hfailed =>
      obtain ⟨e, hanswer⟩ := hfailed
      rw [hanswer]
      have hfaithful := drain_faithful h hout size decoder
        (Or.inr (Eq.refl (Lzma2Event.drainFailed pieces)))
      refine .failed [.drainFailed pieces] rfl ⟨fun hf => ?_, fun ⟨_, hfailed⟩ => ?_⟩
      · have := hnil.mp (List.self_eq_append_right.mp (hf.handed_eq hfaithful))
        exact ⟨by simp, fun _ => (List.flatMap_singleton _ _).trans this⟩
      · have := hfailed ⟨.drainFailed pieces, List.mem_singleton_self _, trivial⟩
        rw [hnil.mpr ((List.flatMap_singleton _ _).symm.trans this), List.append_nil] at hfaithful
        exact hfaithful
  | inr hgood =>
      obtain ⟨status, hanswer⟩ := hgood
      rw [hanswer, hdirect]
      have hfaithful := drain_faithful h hout size decoder
        (Or.inl (Eq.refl (Lzma2Event.drained pieces)))
      have hpump := afterDrain_pumped parts fuel status stream.inputDone
        (pieces.flatten.take size) hfaithful
      dsimp only
      split
      · next fault stream' hafter =>
          rw [hafter] at hpump
          cases fault with
          | error e =>
              obtain ⟨events, hlog, hiff⟩ := hpump.faithful_iff rfl rfl (by simp)
                (List.flatMap_singleton _ _) hnil
              exact .failed events hlog hiff
          | panic _ => exact .stopped nofun
          | outOfFuel => exact .stopped nofun
      · next ended stream' hafter =>
          rw [hafter] at hpump
          cases hpump with
          | ok events hlog hplain hafterFaithful _ =>
              refine .ok (.drained pieces :: events) ?_ ?_ ?_ hnil ?_ hafterFaithful
              · rw [hlog]
                exact List.append_assoc _ _ _
              · refine List.forall_mem_cons.mpr ⟨id, fun event hmem => ?_⟩
                exact (hplain event hmem).not_failed
              · rw [List.flatMap_cons, List.flatMap_eq_nil_iff.mpr fun event hmem =>
                  (hplain event hmem).bytesOut_eq_nil]
                exact List.append_nil _
              · rintro rfl
                exact afterDrain_ended hafter

theorem readLoop_faithful_iff {fuel size rounds : Nat} (h : stream.Faithful handed)
    {answer : Result (List UInt8)}
    (hread : stream.readLoop parts fuel size rounds = (answer, stream'))
    (hreturned : Returned answer) :
    ∃ events, stream'.log = stream.log ++ events ∧
      (stream'.Faithful (handed ++ ReadResult.bytes answer) ↔ Undisturbed events) := by
  induction rounds generalizing stream with
  | zero =>
      cases hread
      exact hreturned.elim
  | succ rounds ih =>
      have hnothing : Undisturbed [] := .of_not_failed (List.forall_mem_nil _)
      unfold readLoop at hread
      split at hread
      · next front rest hout =>
          split at hread
          · cases hread
            refine ⟨[], (List.append_nil _).symm, iff_of_true ?_ hnothing⟩
            exact handOn_faithful h hout (Nat.min_le_left _ _)
          · next hdone =>
              have hrest := ih (pop_faithful h hout hdone) hread
              exact hrest
      · next hout =>
          split at hread
          · cases hread
            refine ⟨[], (List.append_nil _).symm, iff_of_true ?_ hnothing⟩
            exact (List.append_nil handed).symm ▸ h
          · next hmore =>
              have hsize : 0 < size := by
                refine Nat.pos_of_ne_zero fun hzero => hmore ?_
                rw [decide_eq_true hzero, Bool.or_true]
              have hbacklog := keepBacklog_pumped parts fuel h
              split at hread
              · next fault _ hanswer =>
                  rw [hanswer] at hbacklog
                  cases hread
                  obtain ⟨e, he⟩ := hreturned.exists_eq
                  rw [← List.append_nil handed] at hbacklog
                  have := hbacklog.faithful_iff he (List.append_nil _).symm List.not_mem_nil rfl
                    Iff.rfl
                  simpa [ReadResult.bytes] using this
              · next middle hanswer =>
                  rw [hanswer] at hbacklog
                  cases hbacklog with
                  | ok events hlog hplain hmiddle houtm =>
                      have hdrained := drainOnce_drained parts fuel hmiddle
                        (houtm.trans hout) hsize
                      split at hread
                      · next fault _ hanswer' =>
                          rw [hanswer'] at hdrained
                          cases hread
                          obtain ⟨e, rfl⟩ := hreturned.exists_eq
                          cases hdrained with
                          | failed more hlog' hiff =>
                              refine ⟨events ++ more, ?_, ?_⟩
                              · rw [hlog', hlog, List.append_assoc]
                              · rw [Undisturbed.append_iff hplain, ← hiff]
                                exact iff_of_eq (congrArg _ (List.append_nil handed))
                          | stopped hfault => exact absurd rfl (hfault e)
                      · next hanswer' =>
                          rw [hanswer'] at hdrained
                          cases hread
                          cases hdrained with
                          | ok more hlog' hgood _ _ hended hfaithful =>
                              refine ⟨events ++ more, ?_, iff_of_true ?_ ?_⟩
                              · rw [hlog', hlog, List.append_assoc]
                              · rw [hended rfl] at hfaithful
                                exact hfaithful
                              · exact (Undisturbed.append_iff hplain).mpr (.of_not_failed hgood)
                      · next hanswer' =>
                          rw [hanswer'] at hdrained
                          cases hdrained with
                          | ok more hlog' hgood hdecoded hdirect _ hfaithful =>
                              split at hread
                              · next hempty =>
                                  have hnil := List.isEmpty_iff.mp hempty
                                  rw [hnil, List.append_nil] at hfaithful
                                  obtain ⟨last, hlast, hiff⟩ := ih hfaithful hread
                                  have hplain' : ∀ event ∈ events ++ more, event.Plain := by
                                    refine List.forall_mem_append.mpr ⟨hplain, fun event hmem => ?_⟩
                                    refine .of_not_failed (hgood event hmem) ?_
                                    exact List.flatMap_eq_nil_iff.mp
                                      (hdecoded.trans (hdirect.mp hnil)) event hmem
                                  refine ⟨events ++ more ++ last, ?_, ?_⟩
                                  · rw [hlast, hlog', hlog]
                                    simp only [List.append_assoc]
                                  · rw [hiff, Undisturbed.append_iff hplain']
                              · cases hread
                                refine ⟨events ++ more, ?_, iff_of_true hfaithful ?_⟩
                                · rw [hlog', hlog, List.append_assoc]
                                · exact (Undisturbed.append_iff hplain).mpr (.of_not_failed hgood)

variable (parts) in
def ReturningRead (fuel size : Nat) (stream : Lzma2MtStream σ δ κ) : Prop :=
  Returned (stream.readLoop parts fuel size fuel).1

variable (parts) in
def UndisturbedRead (fuel size : Nat) (stream : Lzma2MtStream σ δ κ) : Prop :=
  ReturningRead parts fuel size stream ∧
    Undisturbed ((stream.readLoop parts fuel size fuel).2.log.drop stream.log.length)

instance (fuel size : Nat) (stream : Lzma2MtStream σ δ κ) :
    Decidable (ReturningRead parts fuel size stream) :=
  inferInstanceAs (Decidable (Returned _))

instance (fuel size : Nat) (stream : Lzma2MtStream σ δ κ) :
    Decidable (UndisturbedRead parts fuel size stream) :=
  inferInstanceAs (Decidable (_ ∧ _))

theorem read_faithful_iff (h : stream.Faithful handed) {fuel size : Nat}
    {answer : Result (List UInt8)} (hreturning : ReturningRead parts fuel size stream)
    (hread : read parts fuel size stream = (answer, stream')) :
    stream'.Faithful (handed ++ ReadResult.bytes answer) ↔
      UndisturbedRead parts fuel size stream := by
  change stream.readLoop parts fuel size fuel = _ at hread
  have hreturned := hreturning
  unfold ReturningRead at hreturned
  rw [hread] at hreturned
  obtain ⟨events, hlog, hiff⟩ := readLoop_faithful_iff h hread hreturned
  unfold UndisturbedRead
  rw [hread, hlog, List.drop_left, hiff]
  exact (and_iff_right hreturning).symm

/-- From a faithful reader on: every state of a run is faithful if and only if every read of it
was undisturbed. -/
theorem faithful_run_iff {fuel : Nat} {records : List (ReadRecord Fault)}
    (h : stream.Faithful handed)
    (htrace : TraceWhere (ReturningRead parts fuel) (read parts fuel) stream records stream') :
    (∀ before after middle, records = before ++ after →
        Trace (read parts fuel) stream before middle →
          middle.Faithful (handed ++ delivered before)) ↔
      TraceWhere (UndisturbedRead parts fuel) (read parts fuel) stream records stream' := by
  induction htrace generalizing handed with
  | @nil stream =>
      refine iff_of_true ?_ .nil
      intro before after middle hnil htrace
      obtain ⟨rfl, -⟩ := List.append_eq_nil_iff.mp hnil.symm
      cases htrace
      rw [delivered_nil, List.append_nil]
      exact h
  | @cons stream reached last size answer records hreturning hread hrest ih =>
      have hstep := read_faithful_iff h hreturning hread
      constructor
      · intro hall
        have hnext : reached.Faithful (handed ++ ReadResult.bytes answer) := by
          have := hall [⟨size, answer⟩] records reached rfl (.cons hread .nil)
          rwa [delivered_cons, delivered_nil, List.append_nil] at this
        refine .cons (hstep.mp hnext) hread ((ih hnext).mp ?_)
        rintro before after middle rfl htrace
        have := hall (⟨size, answer⟩ :: before) after middle rfl (.cons hread htrace)
        rwa [delivered_cons, ← List.append_assoc] at this
      · intro hundisturbed before after middle hsplit htrace
        obtain ⟨hnext, htail⟩ : reached.Faithful (handed ++ ReadResult.bytes answer) ∧
            TraceWhere (UndisturbedRead parts fuel) (read parts fuel) reached records last := by
          cases hundisturbed with
          | cons hsafe hread' hrest' =>
              obtain ⟨-, rfl⟩ := Prod.mk.inj (hread.symm.trans hread')
              exact ⟨hstep.mpr hsafe, hrest'⟩
        cases htrace with
        | nil =>
            rw [delivered_nil, List.append_nil]
            exact h
        | cons hread' htrace' =>
            obtain ⟨hrecord, hrecords⟩ := List.cons.inj hsplit
            cases hrecord
            obtain ⟨-, rfl⟩ := Prod.mk.inj (hread.symm.trans hread')
            have := (ih hnext).mpr htail _ after middle hrecords htrace'
            rwa [delivered_cons, ← List.append_assoc]

theorem new_faithful (decoder : δ) (input : σ) (scanner : κ) (threads : Nat) :
    (new decoder input scanner threads).Faithful [] :=
  ⟨Nat.le_refl _, rfl, .nil, Nat.le_refl _, rfl⟩

/-- Every state of a run of a new reader is faithful if and only if every read of it was
undisturbed. -/
theorem faithful_iff_undisturbed {decoder : δ} {input : σ} {scanner : κ} {threads fuel : Nat}
    {records : List (ReadRecord Fault)}
    (htrace : TraceWhere (ReturningRead parts fuel) (read parts fuel)
      (new decoder input scanner threads) records stream') :
    (∀ before after middle, records = before ++ after →
        Trace (read parts fuel) (new decoder input scanner threads) before middle →
          middle.Faithful (delivered before)) ↔
      TraceWhere (UndisturbedRead parts fuel) (read parts fuel)
        (new decoder input scanner threads) records stream' :=
  faithful_run_iff (new_faithful decoder input scanner threads) htrace

end Lzma2MtStream

structure StoredLzma2 where
  taken : List UInt8 := []
  drained : Nat := 0

def storedLzma2Chunks : Nat → List UInt8 → List UInt8 × Bool
  | 0, _ => ([], false)
  | _, 0 :: _ => ([], true)
  | rounds + 1, _ :: high :: low :: rest =>
      let size := high.toNat * 256 + low.toNat + 1
      if rest.length < size then ([], false)
      else
        let (output, ended) := storedLzma2Chunks rounds (rest.drop size)
        (rest.take size ++ output, ended)
  | _, _ => ([], false)

namespace StoredLzma2

variable (decoder : StoredLzma2)

def output : List UInt8 × Bool := storedLzma2Chunks decoder.taken.length decoder.taken

def drain (size : Nat) : List (List UInt8) × Except IoError DrainStatus × StoredLzma2 :=
  let (output, ended) := decoder.output
  let piece := (output.drop decoder.drained).take size
  let drained := decoder.drained + piece.length
  let status :=
    if ended && drained == output.length then .finished
    else if piece.isEmpty then .needsMoreInput
    else .progress
  ([piece], .ok status, { decoder with drained })

def parts : Lzma2Parts (List (ReadResult IoError)) StoredLzma2 Nat where
  input := scriptedRead
  input_le := by
    intro room s bytes h
    match s with
    | [] =>
        cases h
        exact Nat.zero_le _
    | .error _ :: _ => cases h
    | .ok piece :: _ =>
        cases h
        exact List.length_take_le _ _
  feed offered decoder := (.ok offered.length, { decoder with taken := decoder.taken ++ offered })
  feed_le _ _ _ h := Nat.le_of_eq (Except.ok.inj h).symm
  drainUpto size decoder := decoder.drain size
  endOfInput decoder := decoder
  setThreads _ decoder := decoder
  inFlightBytes decoder := decoder.output.1.length - decoder.drained
  memoryLimit _ := 2 ^ 31
  pendingRuns _ := 0
  scan bytes position := (some bytes.length, position + bytes.length)
  nextRuns position := (0, position)
  scanFinished _ := false
  openRunOffset _ := some 0
  inPosition position := position
  threads _ := 1

def stream (answers : List (ReadResult IoError)) :
    Lzma2MtStream (List (ReadResult IoError)) StoredLzma2 Nat :=
  .new {} answers 0 1

def shortReads : List (ReadResult IoError) := [.ok [1, 0], .ok [1, 65, 66, 0]]

end StoredLzma2

open Lzma2MtStream StoredLzma2 in
theorem shortReads_faithful :
    ∃ stream', TraceWhere (UndisturbedRead parts 8) (read parts 8) (stream shortReads)
        [⟨1, .ok [65]⟩, ⟨10, .ok [66]⟩] stream' ∧ stream'.Faithful [65, 66] := by
  have hundisturbed : TraceWhere (UndisturbedRead parts 8) (read parts 8) (stream shortReads)
      [⟨1, .ok [65]⟩, ⟨10, .ok [66]⟩] _ :=
    .cons (by decide +kernel) (Prod.ext (by decide +kernel) rfl)
      (.cons (by decide +kernel) (Prod.ext (by decide +kernel) rfl) .nil)
  have htrace : TraceWhere (ReturningRead parts 8) (read parts 8) (stream shortReads)
      [⟨1, .ok [65]⟩, ⟨10, .ok [66]⟩] _ :=
    .cons (by decide +kernel) (Prod.ext (by decide +kernel) rfl)
      (.cons (by decide +kernel) (Prod.ext (by decide +kernel) rfl) .nil)
  have hfaithful := (faithful_iff_undisturbed htrace).mpr hundisturbed
  exact ⟨_, hundisturbed, hfaithful _ [] _ (List.append_nil _).symm
    (.cons (Prod.ext (by decide +kernel) rfl) (.cons (Prod.ext (by decide +kernel) rfl) .nil))⟩

def StoredLzma2.interruptedRead : List (ReadResult IoError) :=
  [.error .interrupted, .ok [1, 0, 0, 65, 0]]

open Lzma2MtStream StoredLzma2 in
/-- Nothing was delivered, and the window holds a chunk of zeros for the decoder. -/
theorem interruptedRead_addsZeros :
    ∃ stream', TraceWhere (ReturningRead parts 8) (read parts 8) (stream interruptedRead)
        [⟨10, .error (.error (.ofIo .interrupted))⟩] stream' ∧
      stream'.log = [.readFailed] ∧ stream'.inPos = 0 ∧
      stream'.inbuf = List.replicate mtInputChunk 0 ∧ ¬ stream'.Faithful [] := by
  obtain ⟨stream', hread⟩ : ∃ stream', read parts 8 10 (stream interruptedRead) =
      (.error (.error (.ofIo .interrupted)), stream') := ⟨_, Prod.ext rfl rfl⟩
  have hstream : stream' = (read parts 8 10 (stream interruptedRead)).2 := by rw [hread]
  have hlog : stream'.log = [.readFailed] := hstream ▸ rfl
  have hpos : stream'.inPos = 0 := hstream ▸ rfl
  have hinbuf : stream'.inbuf = List.replicate mtInputChunk 0 := hstream ▸ rfl
  refine ⟨stream', .cons (by decide +kernel) hread .nil, hlog, hpos, hinbuf, fun h => ?_⟩
  have hwindow := h.window
  rw [hlog, hpos, hinbuf] at hwindow
  have hlength := congrArg List.length hwindow
  rw [List.drop_zero, List.length_append, List.length_replicate] at hlength
  exact absurd hlength (Nat.ne_of_lt (Nat.lt_add_left _ (Nat.two_pow_pos 20)))

end Sevenz
