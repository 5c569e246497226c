import OmniRush.Seal.Opener

/-!
# What a sealer has written

Between two calls a sealer has turned some prefix of its input into frames and
holds the rest. `Progress` says which: the emitted chunks are all full, what is
held is at most one chunk, and together they are the input so far. Every call
keeps it, however the input is cut (`update_progress`), and a sealer fails only
on a frame past the last index (`update_ok`).

Since a full chunk is held until more input comes, nothing is held only of an
empty input. That makes the cut unique (`cut_unique`), and with it the output.
-/

namespace OmniRush.Seal

open OmniRush

/-- The frames of full chunks that more input followed. -/
def runningFrames (c : Primitives) (key headerHash : Bytes) : Nat → List Bytes → Bytes
  | _, [] => []
  | index, p :: ps =>
      (encryptFrame c key headerHash index false p).flatten
        ++ runningFrames c key headerHash (index + 1) ps

theorem runningFrames_concat (c : Primitives) (key headerHash : Bytes) (index : Nat)
    (ps : List Bytes) (p : Bytes) :
    runningFrames c key headerHash index (ps ++ [p])
      = runningFrames c key headerHash index ps
        ++ (encryptFrame c key headerHash (index + ps.length) false p).flatten := by
  induction ps generalizing index with
  | nil => simp [runningFrames]
  | cons q ps ih =>
      rw [List.cons_append, runningFrames, ih, runningFrames, List.append_assoc,
        List.length_cons, show index + 1 + ps.length = index + (ps.length + 1) by omega]

/-! ## The cut -/

theorem flatten_length_of_full {chunk : Nat} {ps : List Bytes} (h : ∀ p ∈ ps, p.length = chunk) :
    ps.flatten.length = ps.length * chunk := by
  induction ps with
  | nil => simp
  | cons p ps ih =>
      rw [List.flatten_cons, List.length_append, h p (by simp),
        ih fun q hq => h q (List.mem_cons_of_mem _ hq), List.length_cons, Nat.succ_mul]
      omega

/-- Full chunks, then a rest of at most a chunk that is only empty on its own. -/
structure Cut (chunk : Nat) (plain : Bytes) (emitted : List Bytes) (rest : Bytes) : Prop where
  plain_eq : plain = emitted.flatten ++ rest
  full : ∀ p ∈ emitted, p.length = chunk
  rest_le : rest.length ≤ chunk
  held : emitted ≠ [] → rest ≠ []

theorem cut_unique {chunk : Nat} {plain : Bytes} {emitted emitted' : List Bytes}
    {rest rest' : Bytes} (h : Cut chunk plain emitted rest)
    (h' : Cut chunk plain emitted' rest') : emitted = emitted' ∧ rest = rest' := by
  induction emitted generalizing emitted' plain with
  | nil =>
      cases emitted' with
      | nil => exact ⟨rfl, h.plain_eq.symm.trans h'.plain_eq⟩
      | cons p ps =>
          have hlen := congrArg List.length (h.plain_eq.symm.trans h'.plain_eq)
          have hp := h'.full p (by simp)
          have hpos := List.length_pos_iff.mpr (h'.held (by simp))
          have hle := h.rest_le
          simp only [List.flatten_nil, List.nil_append, List.flatten_cons,
            List.length_append] at hlen
          omega
  | cons p ps ih =>
      cases emitted' with
      | nil =>
          have hlen := congrArg List.length (h.plain_eq.symm.trans h'.plain_eq)
          have hp := h.full p (by simp)
          have hpos := List.length_pos_iff.mpr (h.held (by simp))
          have hle := h'.rest_le
          simp only [List.flatten_nil, List.nil_append, List.flatten_cons,
            List.length_append] at hlen
          omega
      | cons q qs =>
          have heq := h.plain_eq.symm.trans h'.plain_eq
          rw [List.flatten_cons, List.flatten_cons, List.append_assoc, List.append_assoc] at heq
          have hlen : p.length = q.length := (h.full p (by simp)).trans (h'.full q (by simp)).symm
          obtain ⟨hpq, htail⟩ := List.append_inj heq hlen
          have hrest := h.held (by simp)
          have hrest' := h'.held (by simp)
          obtain ⟨hps, hr⟩ := ih
            ⟨rfl, fun x hx => h.full x (List.mem_cons_of_mem _ hx), h.rest_le, fun _ => hrest⟩
            ⟨htail, fun x hx => h'.full x (List.mem_cons_of_mem _ hx), h'.rest_le, fun _ => hrest'⟩
          exact ⟨by rw [hpq, hps], hr⟩

/-! ## Progress -/

/-- The fields no call changes. -/
structure SameSealer (s₀ s : FrameSealer) : Prop where
  kid : s.kid = s₀.kid
  key : s.key = s₀.key
  headerHash : s.headerHash = s₀.headerHash
  header : s.header = s₀.header
  chunk : s.chunk = s₀.chunk

structure Progress (c : Primitives) (s₀ s : FrameSealer) (plain : Bytes) (emitted : List Bytes) :
    Prop where
  same : SameSealer s₀ s
  plain_eq : plain = emitted.flatten ++ s.pending
  full : ∀ p ∈ emitted, p.length = s₀.chunk
  index : s.index = emitted.length
  result : s.result = none
  unstarted : s.started = false → emitted = [] ∧ s.output = []
  output : s.started = true →
    s.output.flatten = s₀.header ++ runningFrames c s₀.key s₀.headerHash 0 emitted

section

variable {c : Primitives} {s₀ s s' : FrameSealer} {plain bytes : Bytes} {emitted : List Bytes}

theorem Progress.start (h : Progress c s₀ s plain emitted) :
    Progress c s₀ s.start plain emitted ∧ s.start.started = true := by
  unfold FrameSealer.start
  cases hs : s.started with
  | true => exact ⟨by simpa using h, by simp [hs]⟩
  | false =>
      obtain ⟨hemitted, houtput⟩ := h.unstarted hs
      refine ⟨⟨⟨h.same.kid, h.same.key, h.same.headerHash, h.same.header, h.same.chunk⟩,
        h.plain_eq, h.full, h.index, h.result, by simp, fun _ => ?_⟩, by simp⟩
      simp [hemitted, houtput, runningFrames, h.same.header]

theorem Progress.emitFrame (h : Progress c s₀ s plain emitted) (hstarted : s.started = true)
    (hfull : s.pending.length = s.chunk) :
    Progress c s₀ (s.emitFrame c false) plain (emitted ++ [s.pending]) := by
  refine ⟨⟨h.same.kid, h.same.key, h.same.headerHash, h.same.header, h.same.chunk⟩, ?_, ?_, ?_,
    h.result, fun hn => ?_, fun _ => ?_⟩
  · rw [h.plain_eq, List.flatten_append]
    simp [FrameSealer.emitFrame]
  · intro p hp
    rcases List.mem_append.mp hp with hp | hp
    · exact h.full p hp
    · rw [List.mem_singleton.mp hp, hfull, h.same.chunk]
  · show s.index + 1 = _
    rw [h.index, List.length_append]
    rfl
  · rw [show (s.emitFrame c false).started = s.started from rfl, hstarted] at hn
    cases hn
  · show (s.output ++ encryptFrame c s.key s.headerHash s.index false s.pending).flatten = _
    rw [List.flatten_append, h.output hstarted, runningFrames_concat, h.same.key,
      h.same.headerHash, h.index, Nat.zero_add, List.append_assoc]

theorem Progress.hold (h : Progress c s₀ s plain emitted) (bytes : Bytes)
    (hle : (s.pending ++ bytes).length ≤ s.chunk) :
    Progress c s₀ (s.hold bytes hle) (plain ++ bytes) emitted :=
  ⟨⟨h.same.kid, h.same.key, h.same.headerHash, h.same.header, h.same.chunk⟩,
    by rw [h.plain_eq, List.append_assoc]; rfl, h.full, h.index, h.result, h.unstarted, h.output⟩

theorem Progress.makeRoom (h : Progress c s₀ s plain emitted) (hstarted : s.started = true)
    (hroom : s.makeRoom c = .ok s') :
    s'.started = true ∧ ∃ emitted', Progress c s₀ s' plain emitted' := by
  unfold FrameSealer.makeRoom at hroom
  split at hroom
  · next hfull =>
      unfold FrameSealer.frame at hroom
      split at hroom
      · cases hroom
      · cases hroom
        exact ⟨hstarted, _, h.emitFrame hstarted hfull⟩
  · cases hroom
    exact ⟨hstarted, _, h⟩

/-- The loop of `update`: what comes out of it has taken all the input, and
holds some of it. -/
theorem Progress.feed (h : Progress c s₀ s plain emitted) (hstarted : s.started = true)
    (hfeed : s.feed c bytes = .ok s') :
    s'.started = true ∧ ∃ emitted', Progress c s₀ s' (plain ++ bytes) emitted' ∧
      (bytes = [] → s' = s) ∧ (bytes ≠ [] → s'.pending ≠ []) := by
  induction hlen : bytes.length using Nat.strongRecOn generalizing s plain emitted bytes with
  | ind n ih =>
      unfold FrameSealer.feed at hfeed
      split at hfeed
      · next hnil =>
          cases hfeed
          exact ⟨hstarted, emitted, by rwa [hnil, List.append_nil], fun _ => rfl,
            fun hne => absurd hnil hne⟩
      · next hne =>
          split at hfeed
          · cases hfeed
          · next s₁ hroom =>
              obtain ⟨hstarted₁, emitted₁, h₁⟩ := h.makeRoom hstarted hroom
              have hlt := FrameSealer.makeRoom_lt c hroom
              have hpos := List.length_pos_iff.mpr hne
              have hroom_pos : 0 < s₁.room bytes := by
                rw [FrameSealer.room]
                omega
              have h₂ := h₁.hold (bytes.take (s₁.room bytes)) (s₁.hold_le bytes)
              have hdrop : (bytes.drop (s₁.room bytes)).length < n := by
                rw [List.length_drop]
                omega
              obtain ⟨hstarted', emitted', h', hnil', hne'⟩ :=
                ih _ hdrop h₂ hstarted₁ hfeed rfl
              refine ⟨hstarted', emitted', ?_, fun hn => absurd hn hne, fun _ => ?_⟩
              · rwa [List.append_assoc, List.take_append_drop] at h'
              · by_cases hrest : bytes.drop (s₁.room bytes) = []
                · rw [hnil' hrest]
                  show s₁.pending ++ bytes.take (s₁.room bytes) ≠ []
                  refine List.append_ne_nil_of_right_ne_nil _ fun htake => ?_
                  rw [List.take_eq_nil_iff] at htake
                  rcases htake with htake | htake
                  · omega
                  · exact hne htake
                · exact hne' hrest

theorem Progress.feed_ok (h : Progress c s₀ s plain emitted) (hstarted : s.started = true)
    (hlen : plain.length + bytes.length ≤ maxFrames * s₀.chunk) :
    ∃ s', s.feed c bytes = .ok s' := by
  induction hn : bytes.length using Nat.strongRecOn generalizing s plain emitted bytes with
  | ind n ih =>
      unfold FrameSealer.feed
      split
      · exact ⟨s, rfl⟩
      · next hne =>
          have hpos := List.length_pos_iff.mpr hne
          split
          · next e hroom =>
              exfalso
              unfold FrameSealer.makeRoom at hroom
              split at hroom
              · next hfull =>
                  unfold FrameSealer.frame at hroom
                  split at hroom
                  · next hindex =>
                      have hplain := congrArg List.length h.plain_eq
                      rw [List.length_append, flatten_length_of_full h.full, hfull,
                        h.same.chunk] at hplain
                      rw [h.index] at hindex
                      have hmul := Nat.mul_le_mul_right s₀.chunk hindex
                      omega
                  · cases hroom
              · cases hroom
          · next s₁ hroom =>
              obtain ⟨hstarted₁, emitted₁, h₁⟩ := h.makeRoom hstarted hroom
              have hlt := FrameSealer.makeRoom_lt c hroom
              have hroom_pos : 0 < s₁.room bytes := by
                rw [FrameSealer.room]
                omega
              have h₂ := h₁.hold (bytes.take (s₁.room bytes)) (s₁.hold_le bytes)
              have htake : (bytes.take (s₁.room bytes)).length
                  + (bytes.drop (s₁.room bytes)).length = bytes.length := by
                rw [← List.length_append, List.take_append_drop]
              refine ih _ ?_ h₂ hstarted₁ ?_ rfl
              · rw [List.length_drop]
                omega
              · rw [List.length_append]
                omega

/-! ## Calls -/

/-- What is known after the calls to `update`: also that something is held of
any input. -/
structure Held (c : Primitives) (s₀ s : FrameSealer) (plain : Bytes) (emitted : List Bytes) :
    Prop extends Progress c s₀ s plain emitted where
  held : emitted ≠ [] → s.pending ≠ []

theorem Held.update (h : Held c s₀ s plain emitted) (hupdate : s.update c bytes = .ok s') :
    ∃ emitted', Held c s₀ s' (plain ++ bytes) emitted' := by
  unfold FrameSealer.update at hupdate
  rw [h.result] at hupdate
  obtain ⟨hstart, hstarted⟩ := h.toProgress.start
  obtain ⟨-, emitted', h', hnil, hne⟩ := hstart.feed hstarted hupdate
  by_cases hbytes : bytes = []
  · refine ⟨emitted, ?_, ?_⟩
    · rw [hnil hbytes, hbytes, List.append_nil]
      exact hstart
    · rw [hnil hbytes]
      unfold FrameSealer.start
      split
      · exact h.held
      · exact h.held
  · exact ⟨emitted', h', fun _ => hne hbytes⟩

theorem Held.update_ok (bytes : Bytes) (h : Held c s₀ s plain emitted)
    (hlen : plain.length + bytes.length ≤ maxFrames * s₀.chunk) :
    ∃ s', s.update c bytes = .ok s' := by
  obtain ⟨hstart, hstarted⟩ := h.toProgress.start
  unfold FrameSealer.update
  rw [h.result]
  exact hstart.feed_ok hstarted hlen

theorem Held.updates {pieces : List Bytes} (h : Held c s₀ s plain emitted)
    (hrun : pieces.foldlM (fun s bytes => FrameSealer.update c s bytes) s = .ok s') :
    ∃ emitted', Held c s₀ s' (plain ++ pieces.flatten) emitted' := by
  induction pieces generalizing s plain emitted with
  | nil =>
      cases hrun
      exact ⟨emitted, by rwa [List.flatten_nil, List.append_nil]⟩
  | cons piece pieces ih =>
      rw [List.foldlM_cons] at hrun
      cases hupdate : s.update c piece with
      | error e =>
          rw [hupdate] at hrun
          cases hrun
      | ok s₁ =>
          rw [hupdate] at hrun
          obtain ⟨emitted₁, h₁⟩ := h.update hupdate
          obtain ⟨emitted', h'⟩ := ih h₁ hrun
          exact ⟨emitted', by rwa [List.flatten_cons, ← List.append_assoc]⟩

theorem Held.updates_ok {pieces : List Bytes} (h : Held c s₀ s plain emitted)
    (hlen : plain.length + pieces.flatten.length ≤ maxFrames * s₀.chunk) :
    ∃ s', pieces.foldlM (fun s bytes => FrameSealer.update c s bytes) s = .ok s' := by
  induction pieces generalizing s plain emitted with
  | nil => exact ⟨s, rfl⟩
  | cons piece pieces ih =>
      rw [List.flatten_cons, List.length_append] at hlen
      obtain ⟨s₁, hupdate⟩ := h.update_ok piece (by omega)
      obtain ⟨emitted₁, h₁⟩ := h.update hupdate
      obtain ⟨s', hrest⟩ := ih h₁ (by rw [List.length_append]; omega)
      exact ⟨s', by rw [List.foldlM_cons, hupdate]; exact hrest⟩

end

end OmniRush.Seal
