import OmniRush.Box.Client

/-!
# Frames arrive as they were written

One call of `WriteFrame` may write several frames. Both readers, the box's and the app's,
give exactly the frames that were written, wherever the stream is cut into chunks, and end
in an error where it stops before the end of the Exit frame.

The box's reader goes by what its `Reader` still has to give. The app's takes whole frames
off the front of what it has buffered; between two chunks it holds less than the rest of the
stream, and so never the whole of the last frame.
-/

namespace OmniRush.Box

variable {σ : Type}

/-! ## One frame -/

/-- A frame the box reads. -/
def Frame.Fits (f : Frame) : Prop := f.payload.length ≤ maxFrame

theorem Frame.bytes_length (f : Frame) : f.bytes.length = 5 + f.payload.length := by
  rw [bytes, List.length_cons, List.length_append, beBytes_length]
  omega

theorem frameBytes_cons (f : Frame) (frames : List Frame) :
    frameBytes (f :: frames) = f.bytes ++ frameBytes frames := List.flatMap_cons

theorem Frame.bytes_head (f : Frame) (tail : Bytes) :
    (f.bytes ++ tail).take 5 = f.kind :: beBytes 4 f.payload.length := by
  rw [bytes, List.cons_append, List.append_assoc, List.take_succ_cons,
    List.take_left' (beBytes_length ..)]

theorem Frame.bytes_rest (f : Frame) (tail : Bytes) :
    (f.bytes ++ tail).drop 5 = f.payload ++ tail := by
  rw [bytes, List.cons_append, List.append_assoc, List.drop_succ_cons,
    List.drop_left' (beBytes_length ..)]

theorem Frame.Fits.length_read {f : Frame} (h : f.Fits) :
    beNat (beBytes 4 f.payload.length) = f.payload.length := by
  unfold Fits maxFrame at h
  exact beNat_beBytes (by omega)

/-! ## The frames of a call -/

theorem framePieces_spec {fuel : Nat} {payload : Bytes} (h : payload.length ≤ fuel) :
    (framePieces fuel payload).flatten = payload ∧
      ∀ piece ∈ framePieces fuel payload, piece.length ≤ maxFrame := by
  induction fuel generalizing payload with
  | zero =>
      rw [framePieces]
      refine ⟨List.append_nil _, fun piece hmem => ?_⟩
      rw [List.mem_singleton.mp hmem]
      omega
  | succ fuel ih =>
      unfold framePieces
      split
      · next hlong =>
          have hpos : 0 < maxFrame := by decide
          have hless : (payload.drop maxFrame).length ≤ fuel := by
            rw [List.length_drop]
            omega
          obtain ⟨hflat, hpieces⟩ := ih hless
          refine ⟨by rw [List.flatten_cons, hflat, List.take_append_drop], fun piece hmem => ?_⟩
          rcases List.mem_cons.mp hmem with rfl | hmem
          · exact List.length_take_le ..
          · exact hpieces piece hmem
      · next hshort =>
          refine ⟨List.append_nil _, fun piece hmem => ?_⟩
          rw [List.mem_singleton.mp hmem]
          omega

theorem framesOf_payload (kind : UInt8) (payload : Bytes) :
    ((framesOf kind payload).map Frame.payload).flatten = payload := by
  rw [framesOf, List.map_map]
  exact (congrArg List.flatten (List.map_id' _)).trans
    (framePieces_spec (Nat.le_refl _)).1

theorem mem_framesOf {kind : UInt8} {payload : Bytes} {f : Frame}
    (h : f ∈ framesOf kind payload) : f.kind = kind ∧ f.Fits := by
  obtain ⟨piece, hmem, rfl⟩ := List.mem_map.mp h
  exact ⟨rfl, (framePieces_spec (Nat.le_refl _)).2 piece hmem⟩

theorem framesOf_short {kind : UInt8} {payload : Bytes} (h : payload.length ≤ maxFrame) :
    framesOf kind payload = [⟨kind, payload⟩] := by
  unfold framesOf
  cases hlength : payload.length with
  | zero => rfl
  | succ n =>
      rw [framePieces, if_neg (by omega)]
      rfl

/-! ## The box's reader -/

theorem readFrame_bytes (r : Reader σ) {s : σ} {f : Frame} {tail : Bytes} (hfits : f.Fits)
    (h : r.rest s = f.bytes ++ tail) :
    ∃ t, readFrame r s = .ok (f, t) ∧ r.rest t = tail := by
  have hlength := f.bytes_length
  obtain ⟨t, hhead, hrest⟩ := r.readFull_ok (s := s) (n := 5) (by
    rw [h, List.length_append]
    omega)
  rw [h, f.bytes_head] at hhead
  rw [h, f.bytes_rest] at hrest
  obtain ⟨u, hpayload, hafter⟩ := r.readFull_ok (s := t) (n := f.payload.length) (by
    rw [hrest, List.length_append]
    omega)
  rw [hrest, List.take_left] at hpayload
  rw [hrest, List.drop_left] at hafter
  refine ⟨u, ?_, hafter⟩
  unfold readFrame
  have hread : beNat ((f.kind :: beBytes 4 f.payload.length).drop 1) = f.payload.length :=
    hfits.length_read
  rw [hhead]
  dsimp only
  rw [hread, if_neg (Nat.not_lt.mpr hfits), hpayload]
  rfl

theorem readFrame_cut (r : Reader σ) {s : σ} {f : Frame} {missing tail : Bytes} (hfits : f.Fits)
    (h : r.rest s ++ missing = f.bytes ++ tail) (hcut : (r.rest s).length < f.bytes.length) :
    ∃ e, readFrame r s = .error e := by
  have hlength := f.bytes_length
  unfold readFrame
  rcases Nat.lt_or_ge (r.rest s).length 5 with hhead | hhead
  · obtain ⟨e, he⟩ := r.readFull_short hhead
    rw [he]
    exact ⟨_, rfl⟩
  · obtain ⟨t, hread, hrest⟩ := r.readFull_ok hhead
    have hbytes : (r.rest s).take 5 = f.kind :: beBytes 4 f.payload.length := by
      rw [← f.bytes_head tail, ← h, List.take_append_of_le_length hhead]
    have hshort : (r.rest t).length < f.payload.length := by
      rw [hrest, List.length_drop]
      omega
    obtain ⟨e, he⟩ := r.readFull_short hshort
    have hlen : beNat ((f.kind :: beBytes 4 f.payload.length).drop 1) = f.payload.length :=
      hfits.length_read
    rw [hread, hbytes]
    dsimp only
    rw [hlen, if_neg (Nat.not_lt.mpr hfits), he]
    exact ⟨_, rfl⟩

/-- The frames of a whole operation: any but Exit frames, and one Exit frame. -/
structure Operation (body : List Frame) (last : Frame) : Prop where
  fits : ∀ f ∈ body, f.Fits
  more : ∀ f ∈ body, f.kind ≠ Kind.exit
  last_fits : last.Fits
  last_exit : last.kind = Kind.exit

theorem Operation.left {taken left : List Frame} {last : Frame}
    (h : Operation (taken ++ left) last) : Operation left last where
  fits f hf := h.fits f (List.mem_append_right _ hf)
  more f hf := h.more f (List.mem_append_right _ hf)
  last_fits := h.last_fits
  last_exit := h.last_exit

theorem Operation.tail {f : Frame} {body : List Frame} {last : Frame}
    (h : Operation (f :: body) last) : Operation body last :=
  Operation.left (show Operation ([f] ++ body) last from h)

theorem readFrames_whole (r : Reader σ) {body : List Frame} {last : Frame}
    (h : Operation body last) {fuel : Nat} (hfuel : body.length < fuel) {s : σ} {tail : Bytes}
    (hrest : r.rest s = frameBytes (body ++ [last]) ++ tail) :
    readFrames r fuel s = (body ++ [last], .exit) := by
  induction body generalizing fuel s with
  | nil =>
      cases fuel with
      | zero => cases hfuel
      | succ fuel =>
          obtain ⟨t, hread, -⟩ := readFrame_bytes r h.last_fits
            (hrest.trans (by rw [List.nil_append, frameBytes_cons, List.append_assoc]))
          rw [readFrames, hread]
          dsimp only
          rw [if_pos h.last_exit]
          rfl
  | cons f body ih =>
      cases fuel with
      | zero => cases hfuel
      | succ fuel =>
          obtain ⟨t, hread, ht⟩ := readFrame_bytes r (h.fits f List.mem_cons_self)
            (hrest.trans (by rw [List.cons_append, frameBytes_cons, List.append_assoc]))
          rw [readFrames, hread]
          dsimp only
          rw [if_neg (h.more f List.mem_cons_self),
            ih h.tail (by rw [List.length_cons] at hfuel; omega) ht]
          rfl

theorem split_front {buffered missing front tail : Bytes}
    (h : buffered ++ missing = front ++ tail) (hle : front.length ≤ buffered.length) :
    ∃ rest, buffered = front ++ rest ∧ rest ++ missing = tail := by
  rcases List.append_eq_append_iff.mp h with ⟨rest, hfront, hmissing⟩ | ⟨rest, hbuffered, htail⟩
  · have hnil : rest = [] := by
      rw [hfront, List.length_append] at hle
      exact List.length_eq_zero_iff.mp (by omega)
    subst hnil
    rw [List.append_nil] at hfront
    exact ⟨[], by rw [hfront, List.append_nil], hmissing⟩
  · exact ⟨rest, hbuffered, htail.symm⟩

/-- A stream that stops before the end of the Exit frame gives whole frames and an error. -/
theorem readFrames_cut (r : Reader σ) {body : List Frame} {last : Frame}
    (h : Operation body last) {fuel : Nat} (hfuel : body.length < fuel) {s : σ} {missing : Bytes}
    (hrest : r.rest s ++ missing = frameBytes (body ++ [last])) (hmissing : missing ≠ []) :
    ∃ read e, read <+: body ∧ readFrames r fuel s = (read, .error e) := by
  have hpos : 0 < missing.length := List.length_pos_iff.mpr hmissing
  induction body generalizing fuel s with
  | nil =>
      cases fuel with
      | zero => cases hfuel
      | succ fuel =>
          rw [List.nil_append, frameBytes_cons] at hrest
          have hcut : (r.rest s).length < last.bytes.length := by
            have hall := congrArg List.length hrest
            rw [List.length_append, List.length_append] at hall
            have hnil : (frameBytes []).length = 0 := rfl
            omega
          obtain ⟨e, he⟩ := readFrame_cut r h.last_fits hrest hcut
          refine ⟨[], e, List.nil_prefix, ?_⟩
          rw [readFrames, he]
  | cons f body ih =>
      cases fuel with
      | zero => cases hfuel
      | succ fuel =>
          rw [List.cons_append, frameBytes_cons] at hrest
          have hfits := h.fits f List.mem_cons_self
          rcases Nat.lt_or_ge (r.rest s).length f.bytes.length with hcut | hwhole
          · obtain ⟨e, he⟩ := readFrame_cut r hfits hrest hcut
            refine ⟨[], e, List.nil_prefix, ?_⟩
            rw [readFrames, he]
          · obtain ⟨rest, hfront, htail⟩ := split_front hrest hwhole
            obtain ⟨t, hread, ht⟩ := readFrame_bytes r hfits hfront
            have hless : body.length < fuel := by
              rw [List.length_cons] at hfuel
              omega
            obtain ⟨read, e, hprefix, hframes⟩ := ih h.tail hless (s := t) (by rw [ht, htail])
            refine ⟨f :: read, e, (List.cons_prefix_cons).mpr ⟨rfl, hprefix⟩, ?_⟩
            rw [readFrames, hread]
            dsimp only
            rw [if_neg (h.more f List.mem_cons_self), hframes]

/-! ## The app's reader -/

namespace ClientCall

variable {Exit : Type} {caller : Caller Exit}

/-- The channel a frame is for, if it is for one. -/
def channelOf (kind : UInt8) : Option Channel :=
  if kind = Kind.stdout then some .stdout
  else if kind = Kind.stderr ∨ kind = Kind.fail then some .stderr
  else if kind = Kind.data then some .data
  else none

/-- What the callbacks are called with for some frames. -/
def callsFor (caller : Caller Exit) (frames : List Frame) : List (Channel × Bytes) :=
  frames.filterMap fun f => (channelOf f.kind).bind fun channel =>
    if caller.callback channel then some (channel, f.payload) else none

/-- What is kept of some frames for a channel without a callback. -/
def keptFor (caller : Caller Exit) (channel : Channel) (frames : List Frame) : List Bytes :=
  frames.filterMap fun f =>
    if channelOf f.kind = some channel ∧ caller.callback channel = false then some f.payload
    else none

/-- The call after some frames that do not settle it. -/
def took (caller : Caller Exit) (c : ClientCall Exit) (frames : List Frame) (buffered : Bytes) :
    ClientCall Exit where
  buffered := buffered
  kept channel := c.kept channel ++ keptFor caller channel frames
  called := c.called ++ callsFor caller frames
  outcome := c.outcome
  frames := c.frames ++ frames

theorem took_nil (c : ClientCall Exit) : c.took caller [] c.buffered = c := by
  obtain ⟨buffered, kept, called, outcome, frames⟩ := c
  simp [took, keptFor, callsFor]

theorem took_took (c : ClientCall Exit) (a b : List Frame) (x y : Bytes) :
    (c.took caller a x).took caller b y = c.took caller (a ++ b) y := by
  simp [took, keptFor, callsFor]

theorem keptFor_one (channel : Channel) (f : Frame) : keptFor caller channel [f] =
    if channelOf f.kind = some channel ∧ caller.callback channel = false then [f.payload]
    else [] := by
  unfold keptFor
  rw [List.filterMap_cons]
  split <;> next h => split at h <;> simp_all

theorem deliver_took (c : ClientCall Exit) {f : Frame} {channel : Channel}
    (h : channelOf f.kind = some channel) (x : Bytes) :
    ({ c with buffered := x, frames := c.frames ++ [f] }).deliver caller channel f.payload
      = c.took caller [f] x := by
  unfold deliver took
  dsimp only
  simp only [keptFor_one, h, Option.some.injEq]
  split
  · next hcallback =>
      have hkept : (fun ch => c.kept ch ++
          if channel = ch ∧ caller.callback ch = false then [f.payload] else []) = c.kept := by
        funext ch
        rw [if_neg, List.append_nil]
        rintro ⟨rfl, hnone⟩
        rw [hcallback] at hnone
        cases hnone
      simp [hkept, callsFor, h, hcallback]
  · next hcallback =>
      have hkept : (fun ch => if ch = channel then c.kept ch ++ [f.payload] else c.kept ch) =
          fun ch => c.kept ch ++
            if channel = ch ∧ caller.callback ch = false then [f.payload] else [] := by
        funext ch
        split
        · next heq => rw [heq, if_pos ⟨rfl, by simpa using hcallback⟩]
        · next hne => rw [if_neg fun h => hne h.1.symm, List.append_nil]
      simp [hkept, callsFor, h, hcallback]

theorem onFrame_took (c : ClientCall Exit) {f : Frame} (h : f.kind ≠ Kind.exit) (x : Bytes) :
    ({ c with buffered := x }).onFrame caller f = c.took caller [f] x := by
  unfold onFrame
  dsimp only
  by_cases hstdout : f.kind = Kind.stdout
  · rw [if_pos hstdout]
    exact deliver_took c (by rw [channelOf, if_pos hstdout]) x
  rw [if_neg hstdout]
  by_cases hstderr : f.kind = Kind.stderr ∨ f.kind = Kind.fail
  · rw [if_pos hstderr]
    exact deliver_took c (by rw [channelOf, if_neg hstdout, if_pos hstderr]) x
  rw [if_neg hstderr]
  by_cases hdata : f.kind = Kind.data
  · rw [if_pos hdata]
    exact deliver_took c (by rw [channelOf, if_neg hstdout, if_neg hstderr, if_pos hdata]) x
  rw [if_neg hdata, if_neg h]
  have hnone : channelOf f.kind = none := by
    rw [channelOf, if_neg hstdout, if_neg hstderr, if_neg hdata]
  simp [took, keptFor, callsFor, hnone]

variable (caller)

theorem onFrame_exit (c : ClientCall Exit) {f : Frame} (h : f.kind = Kind.exit) :
    (c.onFrame caller f).outcome = some (.resolved (c.reply caller f.payload)) ∧
      (c.onFrame caller f).frames = c.frames ++ [f] ∧
      (c.onFrame caller f).called = c.called := by
  unfold onFrame
  rw [h, if_neg (by decide), if_neg (by decide), if_neg (by decide), if_pos rfl]
  exact ⟨rfl, rfl, rfl⟩

theorem length_at_front {buffered missing tail : Bytes} {f : Frame} (hfits : f.Fits)
    (h : buffered ++ missing = f.bytes ++ tail) (hle : 5 ≤ buffered.length) :
    beNat ((buffered.drop 1).take 4) = f.payload.length := by
  have hhead : buffered.take 5 = f.kind :: beBytes 4 f.payload.length := by
    rw [← f.bytes_head tail, ← h, List.take_append_of_le_length hle]
  have hlength : (buffered.drop 1).take 4 = (buffered.take 5).drop 1 := by
    rw [List.drop_take]
  rw [hlength, hhead]
  exact hfits.length_read

/-- How far a call is: some frames of an operation are taken and what is buffered is not the
whole rest, or all are taken and the call is settled. -/
inductive Progress (caller : Caller Exit) (c : ClientCall Exit) (body : List Frame)
    (last : Frame) (missing : Bytes) (c' : ClientCall Exit) : Prop where
  | under (taken left : List Frame) (buffered : Bytes) (hbody : body = taken ++ left)
      (hcall : c' = c.took caller taken buffered)
      (hrest : buffered ++ missing = frameBytes (left ++ [last])) (hmissing : missing ≠ [])
  | settled (hmissing : missing = [])
      (hcall : c' = (c.took caller body []).onFrame caller last)

theorem Progress.stop {body : List Frame} {last f : Frame} {c : ClientCall Exit}
    {missing tail : Bytes} (hrest : c.buffered ++ missing = frameBytes (body ++ [last]))
    (hfirst : f.bytes ++ tail = frameBytes (body ++ [last]))
    (hshort : c.buffered.length < f.bytes.length) :
    Progress caller c body last missing c := by
  refine .under [] body c.buffered rfl (took_nil c).symm hrest ?_
  rintro rfl
  rw [List.append_nil, ← hfirst] at hrest
  rw [hrest, List.length_append] at hshort
  omega

theorem takeFrames_front {f : Frame} (hfits : f.Fits) {fuel : Nat} {c : ClientCall Exit}
    {missing tail : Bytes} (hfuel : c.buffered.length ≤ fuel)
    (hrest : c.buffered ++ missing = f.bytes ++ tail) :
    (c.buffered.length < f.bytes.length ∧ takeFrames caller fuel c = c) ∨
    ∃ rest fuel', rest.length ≤ fuel' ∧ rest ++ missing = tail ∧
      takeFrames caller fuel c =
        if (({ c with buffered := rest }).onFrame caller f).outcome.isSome then
          ({ c with buffered := rest }).onFrame caller f
        else takeFrames caller fuel' (({ c with buffered := rest }).onFrame caller f) := by
  have hlength := f.bytes_length
  cases fuel with
  | zero => exact .inl ⟨by omega, rfl⟩
  | succ fuel =>
      rw [takeFrames]
      rcases Nat.lt_or_ge c.buffered.length 5 with hshort | hfive
      · rw [if_pos hshort]
        exact .inl ⟨by omega, rfl⟩
      rw [if_neg (Nat.not_lt.mpr hfive)]
      dsimp only
      rw [length_at_front hfits hrest hfive]
      rcases Nat.lt_or_ge c.buffered.length (5 + f.payload.length) with hshort | hwhole
      · rw [if_pos hshort]
        exact .inl ⟨by omega, rfl⟩
      rw [if_neg (Nat.not_lt.mpr hwhole)]
      obtain ⟨rest, hfront, htail⟩ := split_front hrest (by omega)
      have hframe : (⟨c.buffered.headD 0, (c.buffered.drop 5).take f.payload.length⟩ : Frame)
          = f := by
        rw [hfront, f.bytes_rest, List.take_left]
        rfl
      have hdrop : c.buffered.drop (5 + f.payload.length) = rest := by
        rw [hfront, ← hlength, List.drop_left]
      refine .inr ⟨rest, fuel, ?_, htail, by rw [hframe, hdrop]⟩
      rw [hfront, List.length_append] at hfuel
      omega

theorem takeFrames_progress {body : List Frame} {last : Frame} (h : Operation body last)
    {fuel : Nat} {c : ClientCall Exit} {missing : Bytes} (hfuel : c.buffered.length ≤ fuel)
    (hopen : c.outcome = none) (hrest : c.buffered ++ missing = frameBytes (body ++ [last])) :
    Progress caller c body last missing (takeFrames caller fuel c) := by
  induction body generalizing fuel c with
  | nil =>
      have hfirst : last.bytes ++ [] = frameBytes ([] ++ [last]) := (frameBytes_cons last []).symm
      rcases takeFrames_front caller h.last_fits hfuel (hrest.trans hfirst.symm) with
        ⟨hshort, hsame⟩ | ⟨rest, fuel', -, htail, hnext⟩
      · rw [hsame]
        exact .stop caller hrest hfirst hshort
      · obtain ⟨hrestnil, hmissing⟩ := List.append_eq_nil_iff.mp htail
        subst hrestnil
        obtain ⟨houtcome, -⟩ := onFrame_exit caller { c with buffered := [] } h.last_exit
        rw [houtcome] at hnext
        refine .settled hmissing (hnext.trans ?_)
        have hsame : c.took caller [] [] = { c with buffered := [] } :=
          took_nil { c with buffered := [] }
        rw [hsame]
        rfl
  | cons f body ih =>
      have hfirst : f.bytes ++ frameBytes (body ++ [last]) = frameBytes (f :: body ++ [last]) :=
        (frameBytes_cons f (body ++ [last])).symm
      rcases takeFrames_front caller (h.fits f List.mem_cons_self) hfuel
          (hrest.trans hfirst.symm) with ⟨hshort, hsame⟩ | ⟨rest, fuel', hless, htail, hnext⟩
      · rw [hsame]
        exact .stop caller hrest hfirst hshort
      · rw [onFrame_took c (h.more f List.mem_cons_self)] at hnext
        have hnone : (c.took caller [f] rest).outcome = none := hopen
        rw [hnone] at hnext
        rw [hnext]
        rcases ih h.tail (c := c.took caller [f] rest) hless hnone htail with
          ⟨taken, left, buffered, hbody, hcall, hleft, hmissing⟩ | ⟨hmissing, hcall⟩
        · refine .under (f :: taken) left buffered (by rw [hbody, List.cons_append]) ?_ hleft
            hmissing
          exact hcall.trans (took_took ..)
        · refine .settled hmissing (hcall.trans ?_)
          rw [took_took]
          rfl

/-! ### Chunk by chunk -/

theorem foldl_settled {c : ClientCall Exit} (h : c.outcome.isSome = true) (chunks : List Bytes) :
    chunks.foldl (onChunk caller) c = c := by
  induction chunks with
  | nil => rfl
  | cons chunk chunks ih => rw [List.foldl_cons, onChunk, if_pos h, ih]

theorem foldl_progress {body : List Frame} {last : Frame} (h : Operation body last)
    {chunks : List Bytes} {c : ClientCall Exit} {missing : Bytes} (hopen : c.outcome = none)
    (hrest : c.buffered ++ (chunks.flatten ++ missing) = frameBytes (body ++ [last]))
    (hcoming : chunks.flatten ++ missing ≠ []) :
    Progress caller c body last missing (chunks.foldl (onChunk caller) c) := by
  induction chunks generalizing c body with
  | nil => exact .under [] body c.buffered rfl (took_nil c).symm hrest hcoming
  | cons chunk chunks ih =>
      have hchunk : onChunk caller c chunk = takeFrames caller (c.buffered ++ chunk).length
          { c with buffered := c.buffered ++ chunk } := by
        rw [onChunk, hopen]
        rfl
      rw [List.foldl_cons, hchunk]
      rw [List.flatten_cons, List.append_assoc, ← List.append_assoc] at hrest
      rcases takeFrames_progress caller h (c := { c with
          buffered := c.buffered ++ chunk }) (Nat.le_refl _) hopen hrest with
        ⟨taken, left, buffered, rfl, hcall, hleft, hmore⟩ | ⟨hnone, hcall⟩
      · rcases ih h.left (c := c.took caller taken buffered) hopen hleft hmore with
          ⟨taken', left', buffered', rfl, hcall', hleft', hmissing⟩ | ⟨hmissing, hcall'⟩
        · refine .under (taken ++ taken') left' buffered' (List.append_assoc ..).symm ?_ hleft'
            hmissing
          rw [← took_took, hcall]
          exact hcall'
        · refine .settled hmissing ?_
          rw [← took_took, hcall]
          exact hcall'
      · obtain ⟨houtcome, -⟩ := onFrame_exit caller (c.took caller body []) h.last_exit
        refine .settled (List.append_eq_nil_iff.mp hnone).2 ?_
        rw [hcall]
        refine foldl_settled caller ?_ chunks
        exact Option.isSome_of_eq_some houtcome

theorem run_whole {body : List Frame} {last : Frame} (h : Operation body last)
    {chunks : List Bytes} (hchunks : chunks.flatten = frameBytes (body ++ [last])) :
    run caller chunks = (({} : ClientCall Exit).took caller body []).onFrame caller last := by
  have hcoming : chunks.flatten ++ [] ≠ [] := by
    have hlength := congrArg List.length hchunks
    rw [frameBytes, List.flatMap_append, List.length_append, ← frameBytes, ← frameBytes,
      frameBytes_cons, List.length_append, last.bytes_length] at hlength
    rw [List.append_nil]
    rintro hnil
    rw [hnil, List.length_nil] at hlength
    omega
  rcases foldl_progress caller h (c := {}) rfl
      ((List.append_nil _).trans hchunks) hcoming with ⟨_, _, _, -, -, -, hmissing⟩ | ⟨-, hcall⟩
  · exact absurd rfl hmissing
  · obtain ⟨houtcome, -⟩ := onFrame_exit caller
      (({} : ClientCall Exit).took caller body []) h.last_exit
    rw [run, hcall, onClose, if_pos (Option.isSome_of_eq_some houtcome)]

theorem run_cut {body : List Frame} {last : Frame} (h : Operation body last)
    {chunks : List Bytes} {missing : Bytes} (hmissing : missing ≠ [])
    (hchunks : chunks.flatten ++ missing = frameBytes (body ++ [last])) :
    (run caller chunks).frames <+: body ∧ (run caller chunks).outcome = some .closedEarly := by
  have hcoming : chunks.flatten ++ missing ≠ [] :=
    fun hnil => hmissing (List.append_eq_nil_iff.mp hnil).2
  rcases foldl_progress caller h (c := {}) rfl hchunks hcoming with
    ⟨taken, left, buffered, rfl, hcall, -, -⟩ | ⟨hnone, -⟩
  · rw [run, hcall]
    exact ⟨List.prefix_append taken left, rfl⟩
  · exact absurd hnone hmissing

end ClientCall

end OmniRush.Box
