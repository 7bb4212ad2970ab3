import Sevenz.Writer.WrappedChain

/-!
# `Delta` on a sink that takes part of an offer

`DeltaWriter` transforms the whole of a buffer, moves its state past it, and then reports what
one offer to the writer below took of it.  A caller that writes the rest again has it transformed
from a state that has already seen it.
-/

namespace Sevenz

open Lib

def takingUpTo (most : Nat) : ByteSink Fault (List (List UInt8)) where
  write buf received := .ok (min most buf.length, received ++ [buf.take most])
  flush received := .ok received

theorem takingUpTo_takesParts {most : Nat} (hmost : 0 < most) :
    TakesParts (takingUpTo most) (fun _ => True) id where
  delivers := {
    write := by
      intro received buf _ hne
      have hpos := List.length_pos_of_ne_nil hne
      refine ⟨min most buf.length, _, rfl, by omega, Nat.min_le_right _ _, trivial, ?_⟩
      rw [← List.take_eq_take_min]
      rfl
    flush := fun received _ => ⟨received, rfl, trivial, rfl⟩ }
  bounded := by
    rintro buf s taken s' ⟨⟩
    exact Nat.min_le_right _ _
  empty received _ := by
    refine ⟨received ++ [[]], ?_, trivial, ?_⟩
    · change Except.ok (min most 0, received ++ [([] : List UInt8).take most]) = _
      rw [Nat.min_zero, List.take_nil]
    · exact List.flatten_concat.trans (List.append_nil received.flatten)

def deltaWriter {σ : Type} (w : ByteSink Fault σ) (distance : Nat) :
    ByteSink Fault (List UInt8 × σ) where
  write buf := fun (seen, s) => do
    let (taken, s) ← w.write (deltaEncode distance seen buf) s
    pure (taken, seen ++ buf, s)
  flush := fun (seen, s) => do
    let s ← w.flush s
    pure (seen, s)

section

variable {env : Encoders} {σ τ ρ : Type} {w : ByteSink Fault σ} {v : ByteSink Fault τ}
  {R : σ → τ → Prop}

theorem counting_alike (h : WriteAlike w v R) :
    WriteAlike w.counting v fun p t => R p.2 t where
  write := by
    rintro ⟨count, s⟩ t buf hst
    have hwrite := h.write buf hst
    unfold ByteSink.counting
    dsimp only at hst ⊢
    generalize w.write buf s = x at hwrite ⊢
    generalize v.write buf t = y at hwrite ⊢
    cases hwrite with
    | error => exact .error
    | ok hpq => exact .ok hpq
  flush := by
    rintro ⟨count, s⟩ t hst
    have hflush := h.flush hst
    unfold ByteSink.counting
    dsimp only at hst ⊢
    generalize w.flush s = x at hflush ⊢
    generalize v.flush t = y at hflush ⊢
    cases hflush with
    | error => exact .error
    | ok hst' => exact .ok hst'

theorem compressWrap_alike (h : WriteAlike w v R) :
    WriteAlike (compressWrap w) v fun p t => R p.2 t where
  write := by
    rintro ⟨tally, s⟩ t buf hst
    rw [← bind_pure (v.write buf t)]
    apply (h.write buf hst).bind
    rintro ⟨taken, s'⟩ ⟨_, t'⟩ ⟨rfl, hst'⟩
    exact .ok ⟨rfl, hst'⟩
  flush := by
    rintro ⟨tally, s⟩ t hst
    rw [← bind_pure (v.flush t)]
    exact (h.flush hst).bind fun _ _ hst' => .ok hst'

def LayersOver (encoders : List Encoder) (R : σ → τ → Prop) (p : List Layer × σ) (t : τ) : Prop :=
  p.1.map Prod.fst = encoders ∧ R p.2 t

variable (env) in
theorem stacked_copies (h : WriteAlike w v R) (copies : Nat) :
    WriteAlike (stacked w env copies) v (LayersOver (List.replicate copies .copy) R) := by
  induction copies with
  | zero =>
      constructor
      · rintro ⟨layers, s⟩ t buf ⟨hnil, hst⟩
        rw [← bind_pure (v.write buf t)]
        apply (h.write buf hst).bind
        rintro ⟨taken, s'⟩ ⟨_, t'⟩ ⟨rfl, hst'⟩
        exact .ok ⟨rfl, hnil, hst'⟩
      · rintro ⟨layers, s⟩ t ⟨hnil, hst⟩
        rw [← bind_pure (v.flush t)]
        exact (h.flush hst).bind fun _ _ hst' => .ok ⟨hnil, hst'⟩
  | succ copies ih =>
      have hbelow := counting_alike ih
      constructor
      · rintro ⟨layers, s⟩ t buf ⟨hcopies, hst⟩
        cases layers with
        | nil => cases hcopies
        | cons layer below =>
            obtain ⟨encoder, counted⟩ := layer
            obtain ⟨rfl, hrest⟩ := List.cons.inj hcopies
            have hwrite := (stacked_copy w env copies).write buf (counted, below, s)
            refine (hwrite ▸ (hbelow.write buf ⟨hrest, hst⟩).map_left ?_ :)
            rintro ⟨taken, counted', below', s'⟩ ⟨_, t'⟩ ⟨rfl, hrest', hst'⟩
            exact ⟨rfl, congrArg (Encoder.copy :: ·) hrest', hst'⟩
      · rintro ⟨layers, s⟩ t ⟨hcopies, hst⟩
        cases layers with
        | nil => cases hcopies
        | cons layer below =>
            obtain ⟨encoder, counted⟩ := layer
            obtain ⟨rfl, hrest⟩ := List.cons.inj hcopies
            have hflush := (stacked_copy w env copies).flush (counted, below, s)
            refine (hflush ▸ (hbelow.flush ⟨hrest, hst⟩).map_left ?_ :)
            rintro ⟨counted', below', s'⟩ t' ⟨hrest', hst'⟩
            exact ⟨congrArg (Encoder.copy :: ·) hrest', hst'⟩

def DeltaOver (distance copies : Nat) (R : σ → τ → Prop) (p : List Layer × σ)
    (q : List UInt8 × τ) : Prop :=
  LayersOver (.delta distance q.1 :: List.replicate copies .copy) R p q.2

theorem stacked_delta (h : WriteAlike w v R) (distance copies : Nat) :
    WriteAlike (stacked w env (copies + 1)) (deltaWriter v distance)
      (DeltaOver distance copies R) := by
  have hbelow := counting_alike (stacked_copies env h copies)
  constructor
  · rintro ⟨layers, s⟩ ⟨seen, t⟩ buf ⟨hlayers, hst⟩
    cases layers with
    | nil => cases hlayers
    | cons layer below =>
        obtain ⟨encoder, counted⟩ := layer
        obtain ⟨rfl, hrest⟩ := List.cons.inj hlayers
        change Alike _ ((_ >>= _) >>= _) (_ >>= _)
        rw [bind_assoc]
        have hwrite := hbelow.write (s := (counted, below, s)) (deltaEncode distance seen buf)
          ⟨hrest, hst⟩
        apply hwrite.bind
        rintro ⟨taken, counted', below', s'⟩ ⟨_, t'⟩ ⟨rfl, hrest', hst'⟩
        exact .ok ⟨rfl, congrArg (Encoder.delta distance (seen ++ buf) :: ·) hrest', hst'⟩
  · rintro ⟨layers, s⟩ ⟨seen, t⟩ ⟨hlayers, hst⟩
    cases layers with
    | nil => cases hlayers
    | cons layer below =>
        obtain ⟨encoder, counted⟩ := layer
        obtain ⟨rfl, hrest⟩ := List.cons.inj hlayers
        change Alike _ ((_ >>= _) >>= _) (_ >>= _)
        rw [bind_assoc]
        have hflush := hbelow.flush (s := (counted, below, s)) ⟨hrest, hst⟩
        apply hflush.bind
        rintro ⟨counted', below', s'⟩ t' ⟨hrest', hst'⟩
        exact .ok ⟨congrArg (Encoder.delta distance seen :: ·) hrest', hst'⟩

theorem wrappedChain_delta (w : ByteSink Fault σ) (env : Encoders) (distance copies : Nat) :
    WriteAlike (wrappedChain w env (copies + 1)) (deltaWriter w distance)
      fun p q => DeltaOver distance copies (fun p s => p.2 = s) p.2 q := by
  have hsink : WriteAlike w w Eq := by
    constructor
    · rintro s _ buf rfl
      cases w.write buf s with
      | error e => exact .error
      | ok p => exact .ok ⟨rfl, rfl⟩
    · rintro s _ rfl
      cases w.flush s with
      | error e => exact .error
      | ok s' => exact .ok rfl
  exact compressWrap_alike (stacked_delta (compressWrap_alike hsink) distance copies)

end

theorem deltaEncode_append (distance : Nat) (seen xs ys : List UInt8) :
    deltaEncode distance seen (xs ++ ys) =
      deltaEncode distance seen xs ++ deltaEncode distance (seen ++ xs) ys := by
  induction xs generalizing seen with
  | nil => rw [List.nil_append, List.append_nil]; rfl
  | cons x xs ih =>
      rw [List.cons_append, deltaEncode, deltaEncode, ih, List.append_assoc]
      rfl

theorem writeAllLoop_step {σ : Type} {w : ByteSink Fault σ} {buf : List UInt8} {s s' : σ}
    {taken : Nat} (hwrite : w.write buf s = .ok (taken, s')) (hpos : 0 < taken) (hne : buf ≠ [])
    (rounds : Nat) :
    w.writeAllLoop writeZero (rounds + 1) buf s =
      w.writeAllLoop writeZero rounds (buf.drop taken) s' := by
  cases buf with
  | nil => exact absurd rfl hne
  | cons b buf => simp only [ByteSink.writeAllLoop, hwrite, Nat.ne_of_gt hpos, if_false]

theorem drive_one {σ : Type} {w : ByteSink Fault σ} {chunk : List UInt8} {s s₁ s₂ s₃ : σ}
    {taken : Nat} (hwrite : w.writeAll writeZero chunk s = .ok s₁) (hflush : w.flush s₁ = .ok s₂)
    (hend : w.write [] s₂ = .ok (taken, s₃)) : drive w [chunk] s = .ok s₃ := by
  have heach : writeEach w [chunk] s = .ok s₁ := Result.bind_of_ok hwrite
  unfold drive
  rw [Result.bind_of_ok heach, Result.bind_of_ok hflush, Result.bind_of_ok hend]
  rfl

theorem deltaWriter_takingUpTo_write (most distance : Nat) (buf seen : List UInt8)
    (received : List (List UInt8)) :
    (deltaWriter (takingUpTo most) distance).write buf (seen, received) =
      .ok (min most buf.length, seen ++ buf,
        received ++ [(deltaEncode distance seen buf).take most]) := by
  rw [← deltaEncode_length distance seen buf]
  rfl

theorem deltaWriter_takingAll_write (distance : Nat) (buf seen : List UInt8)
    (received : List (List UInt8)) :
    (deltaWriter takingAll distance).write buf (seen, received) =
      .ok (buf.length, seen ++ buf, received ++ [deltaEncode distance seen buf]) := by
  rw [← deltaEncode_length distance seen buf]
  rfl

/-- On a sink that takes all but the last byte, a `DeltaWriter` takes that byte for one further
on. -/
theorem deltaWriter_takingUpTo_writeAll {n : Nat} {xs : List UInt8} (hxs : xs.length = n + 1)
    (x : UInt8) :
    (deltaWriter (takingUpTo (n + 1)) (n + 1)).writeAll writeZero (xs ++ [x]) ([], []) =
      .ok (xs ++ [x] ++ [x], [deltaEncode (n + 1) [] xs,
        deltaEncode (n + 1) (xs ++ [x]) [x]]) := by
  have hfirst := deltaWriter_takingUpTo_write (n + 1) (n + 1) (xs ++ [x]) [] []
  have hsecond := deltaWriter_takingUpTo_write (n + 1) (n + 1) [x] (xs ++ [x])
    [deltaEncode (n + 1) [] xs]
  have hlength : (xs ++ [x]).length = n + 2 := by rw [List.length_append, hxs]; rfl
  have hmin : min (n + 1) (xs ++ [x]).length = n + 1 := by
    rw [hlength]
    exact Nat.min_eq_left (Nat.le_succ _)
  have htake : (deltaEncode (n + 1) [] (xs ++ [x])).take (n + 1) = deltaEncode (n + 1) [] xs := by
    rw [deltaEncode_append]
    exact List.take_left' ((deltaEncode_length _ _ _).trans hxs)
  rw [hmin, htake] at hfirst
  unfold ByteSink.writeAll
  rw [hlength, writeAllLoop_step hfirst (Nat.succ_pos n)
    (List.append_ne_nil_of_right_ne_nil xs (List.cons_ne_nil x [])), List.drop_left' hxs]
  refine (writeAllLoop_step hsecond ?_ (List.cons_ne_nil x []) n).trans ?_
  · exact Nat.lt_min.mpr ⟨Nat.succ_pos n, Nat.one_pos⟩
  · cases n <;> rfl

theorem drive_delta_takingUpTo {n : Nat} {xs : List UInt8} (hxs : xs.length = n + 1) (x : UInt8) :
    drive (deltaWriter (takingUpTo (n + 1)) (n + 1)) [xs ++ [x]] ([], []) =
      .ok (xs ++ [x] ++ [x] ++ [], [deltaEncode (n + 1) [] xs,
        deltaEncode (n + 1) (xs ++ [x]) [x], []]) := by
  have hend := deltaWriter_takingUpTo_write (n + 1) (n + 1) [] (xs ++ [x] ++ [x])
    [deltaEncode (n + 1) [] xs, deltaEncode (n + 1) (xs ++ [x]) [x]]
  exact drive_one (deltaWriter_takingUpTo_writeAll hxs x) rfl hend

theorem deltaWriter_takingAll_writeAll (distance : Nat) (xs : List UInt8) (x : UInt8) :
    (deltaWriter takingAll distance).writeAll writeZero (xs ++ [x]) ([], []) =
      .ok (xs ++ [x], [deltaEncode distance [] xs ++ deltaEncode distance xs [x]]) := by
  have hfirst := deltaWriter_takingAll_write distance (xs ++ [x]) [] []
  have hlength : (xs ++ [x]).length = xs.length + 1 := List.length_append
  rw [deltaEncode_append] at hfirst
  unfold ByteSink.writeAll
  rw [hlength] at hfirst ⊢
  refine (writeAllLoop_step hfirst (Nat.succ_pos _)
    (List.append_ne_nil_of_right_ne_nil xs (List.cons_ne_nil x [])) _).trans ?_
  rw [List.drop_of_length_le (Nat.le_of_eq hlength)]
  cases xs.length <;> rfl

theorem drive_delta_takingAll (distance : Nat) (xs : List UInt8) (x : UInt8) :
    drive (deltaWriter takingAll distance) [xs ++ [x]] ([], []) =
      .ok (xs ++ [x] ++ [], [deltaEncode distance [] xs ++ deltaEncode distance xs [x], []]) := by
  have hend := deltaWriter_takingAll_write distance [] (xs ++ [x])
    [deltaEncode distance [] xs ++ deltaEncode distance xs [x]]
  exact drive_one (deltaWriter_takingAll_writeAll distance xs x) rfl hend

theorem deltaEncode_ones_ne (n : Nat) :
    deltaEncode (n + 1) (0 :: List.replicate n 1 ++ [1]) [1] ≠
      deltaEncode (n + 1) (0 :: List.replicate n 1) [1] := by
  have hlength : (0 :: List.replicate n (1 : UInt8)).length = n + 1 := by
    rw [List.length_cons, List.length_replicate]
  have hnext : deltaEncode (n + 1) (0 :: List.replicate n 1 ++ [1]) [1] = [1 - 1] := by
    have hlength' : (0 :: List.replicate n 1 ++ [(1 : UInt8)]).length = n + 1 + 1 := by
      rw [List.length_append, hlength, List.length_singleton]
    have hones : 0 :: List.replicate n (1 : UInt8) ++ [1] = 0 :: 1 :: List.replicate n 1 := by
      rw [List.cons_append, ← List.replicate_succ', List.replicate_succ]
    rw [deltaEncode, if_neg (by omega), hlength', Nat.add_sub_cancel_left, hones]
    rfl
  have hback : deltaEncode (n + 1) (0 :: List.replicate n 1) [1] = [1 - 0] := by
    rw [deltaEncode, if_neg (by omega), hlength, Nat.sub_self]
    rfl
  rw [hnext, hback]
  decide

theorem addEncoders_copies (env : Encoders) {copies : List EncoderConfiguration}
    (hcopies : ∀ mc ∈ copies, mc.method = .copy) (rest : List EncoderConfiguration)
    (chain : Chain) {n : Nat} (hchain : chain.encoders = List.replicate n .copy) :
    ∃ chain', addEncoders env (copies ++ rest) chain = addEncoders env rest chain' ∧
      chain'.encoders = List.replicate (copies.length + n) .copy := by
  induction copies generalizing chain n with
  | nil => exact ⟨chain, rfl, by rw [hchain, List.length_nil, Nat.zero_add]⟩
  | cons mc copies ih =>
      obtain ⟨hmc, hcopies⟩ := List.forall_mem_cons.mp hcopies
      have hadd : addEncoder env mc = .ok .copy := by
        unfold addEncoder
        rw [hmc]
      obtain ⟨chain', hrest, hencoders⟩ := ih hcopies (.layer .copy [] 0 chain)
        (show _ = List.replicate (n + 1) Encoder.copy by
          rw [Chain.encoders, hchain]
          rfl)
      refine ⟨chain', ?_, ?_⟩
      · rw [List.cons_append, addEncoders, Result.bind_of_ok hadd]
        exact hrest
      · rw [hencoders, List.length_cons]
        congr 1
        omega

theorem createWriter_delta (env : Encoders) {copies : List EncoderConfiguration}
    (hcopies : ∀ mc ∈ copies, mc.method = .copy) {config : EncoderConfiguration}
    (hdelta : config.method = .deltaFilter) :
    ∃ chain n, createWriter env (copies ++ [config]) = .ok chain ∧
      chain.encoders = .delta (n + 1) [] :: List.replicate copies.length .copy := by
  obtain ⟨below, hbelow, hencoders⟩ := addEncoders_copies env hcopies [config] (.sink [])
    (n := 0) rfl
  obtain ⟨distance, hadd, hpos⟩ : ∃ distance, addEncoder env config = .ok (.delta distance []) ∧
      0 < distance := by
    unfold addEncoder
    rw [hdelta]
    exact ⟨_, rfl, Nat.lt_of_lt_of_le Nat.one_pos (Nat.le_max_left _ _)⟩
  obtain ⟨n, rfl⟩ := Nat.exists_eq_add_of_le' hpos
  refine ⟨.layer (.delta (n + 1) []) [] 0 below, n, ?_, ?_⟩
  · refine hbelow.trans ?_
    rw [addEncoders, Result.bind_of_ok hadd]
    rfl
  · rw [Chain.encoders, hencoders]
    rfl

theorem encodeInto_delta {env : Encoders} {chain : Chain} {n copies : Nat}
    (hencoders : chain.encoders = .delta (n + 1) [] :: List.replicate copies .copy)
    {w : ByteSink Fault (List (List UInt8))} {chunks : List (List UInt8)} {seen : List UInt8}
    {received : List (List UInt8)}
    (hdrive : drive (deltaWriter w (n + 1)) chunks ([], []) = .ok (seen, received)) :
    ∃ encoded, (encodeInto w env chain chunks []).map (LeftBehind.of id) = .ok encoded ∧
      encoded.bytes = received.flatten := by
  have hlength : chain.encoders.length = copies + 1 := by
    rw [hencoders, List.length_cons, List.length_replicate]
  have hlayers : (chain.encoders.map fun encoder => (encoder, 0)).map Prod.fst =
      .delta (n + 1) [] :: List.replicate copies .copy := by
    rw [List.map_map, ← hencoders]
    exact List.map_id _
  have halike := drive_alike (wrappedChain_delta w env (n + 1) copies).all chunks
    (s := ({}, chain.encoders.map fun encoder => (encoder, 0), {}, [])) (t := ([], []))
    ⟨hlayers, rfl⟩
  rw [hdrive] at halike
  obtain ⟨p, hp, -, hreceived⟩ := halike.exists_of_ok
  refine ⟨LeftBehind.of id p, ?_, congrArg List.flatten hreceived⟩
  unfold encodeInto
  rw [hlength, hp]
  rfl

theorem not_sinkIndependent_delta (env : Encoders) {copies : List EncoderConfiguration}
    (hcopies : ∀ mc ∈ copies, mc.method = .copy) {config : EncoderConfiguration}
    (hdelta : config.method = .deltaFilter) : ¬ SinkIndependent env (copies ++ [config]) := by
  intro hindependent
  obtain ⟨chain, n, hchain, hencoders⟩ := createWriter_delta env hcopies hdelta
  have hlength : (0 :: List.replicate n (1 : UInt8)).length = n + 1 := by
    rw [List.length_cons, List.length_replicate]
  have hsame := hindependent chain hchain (takingUpTo_takesParts (Nat.succ_pos n)) []
    [0 :: List.replicate n 1 ++ [1]] trivial rfl
  obtain ⟨parts, hparts, hbytes⟩ := encodeInto_delta hencoders
    (drive_delta_takingUpTo hlength 1)
  obtain ⟨all, hall, hbytes'⟩ := encodeInto_delta hencoders
    (drive_delta_takingAll (n + 1) (0 :: List.replicate n 1) 1)
  rw [hparts, hall] at hsame
  rw [← Except.ok.inj hsame, hbytes] at hbytes'
  exact deltaEncode_ones_ne n (by simpa using hbytes')

/-- The chains of the first methods, however many, do not depend on their sinks if and only if
`Delta` is not the first method after `Copy` methods. -/
theorem sinkIndependent_iff (env : Encoders) (methods : List EncoderConfiguration) :
    (∀ part, part <+: methods → SinkIndependent env part) ↔
      ∀ mc, methods.find? (·.method ≠ .copy) = some mc → mc.method ≠ .deltaFilter := by
  constructor
  · intro hindependent mc hmc hdelta
    obtain ⟨-, copies, rest, rfl, hcopies⟩ := List.find?_eq_some_iff_append.mp hmc
    refine not_sinkIndependent_delta env (fun mc hmem => ?_) hdelta
      (hindependent (copies ++ [mc]) ⟨rest, by simp⟩)
    simpa using hcopies mc hmem
  · rintro h part ⟨rest, rfl⟩
    apply sinkIndependent_of_first
    intro mc hmc
    exact h mc (by rw [List.find?_append, hmc]; rfl)

def deltaMethod : EncoderConfiguration := { method := .deltaFilter, options := some (.delta 1) }

def deltaChain : Chain := .layer (.delta 1 []) [] 0 (.sink [])

/-- The second byte is 1 more than the first, and the sink that takes one byte at a time is told
that it is the same. -/
theorem deltaChain_shortWrites :
    createWriter storingEncoders [deltaMethod] = .ok deltaChain ∧
      (encodeInto takingAll storingEncoders deltaChain [[0, 1]] []).map
        (fun state => (LeftBehind.of id state).bytes) = .ok [0, 1] ∧
      (encodeInto (takingUpTo 1) storingEncoders deltaChain [[0, 1]] []).map
        (fun state => (LeftBehind.of id state).bytes) = .ok [0, 0] ∧
      ¬ SinkIndependent storingEncoders [deltaMethod] :=
  ⟨rfl, rfl, rfl, @not_sinkIndependent_delta storingEncoders [] (List.forall_mem_nil _) _ rfl⟩

end Sevenz
