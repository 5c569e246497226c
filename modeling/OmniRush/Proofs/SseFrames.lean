import Mathlib.Data.List.Infix
import Mathlib.Tactic.ByContra
import OmniRush.Engine.SseFrames

/-!
# Frames do not depend on how a stream is cut into chunks

A text that ends inside a delimiter has no whole one after the place where that begins. So the
first match in a text stays the first match however the text goes on (`cutDelimiter_append`), and
what is cut off a text is cut off all that begins with it.
-/

namespace OmniRush.Engine

variable {text rest frame : List Char}

/-! ## Matches -/

theorem afterBreak_iff : afterBreak text = some rest ↔
    ∃ lineEnd ∈ [['\n'], ['\r', '\n']], text = lineEnd ++ rest := by
  simp only [List.mem_cons, List.not_mem_nil, or_false, exists_eq_or_imp, exists_eq_left]
  constructor
  · intro h
    simp only [afterBreak] at h
    split at h
    · cases h
      exact .inr rfl
    · cases h
      exact .inl rfl
    · cases h
  · rintro (rfl | rfl)
    · rfl
    · rfl

theorem afterDelimiter_iff : afterDelimiter text = some rest ↔
    ∃ delimiter ∈ delimiters, text = delimiter ++ rest := by
  simp only [afterDelimiter, Option.bind_eq_some_iff, afterBreak_iff, delimiters, List.mem_cons,
    List.not_mem_nil, or_false, exists_eq_or_imp, exists_eq_left]
  constructor
  · rintro ⟨middle, rfl | rfl, rfl | rfl⟩
    · exact .inl rfl
    · exact .inr (.inr (.inl rfl))
    · exact .inr (.inl rfl)
    · exact .inr (.inr (.inr rfl))
  · rintro (rfl | rfl | rfl | rfl)
    · exact ⟨_, .inl rfl, .inl rfl⟩
    · exact ⟨_, .inr rfl, .inl rfl⟩
    · exact ⟨_, .inl rfl, .inr rfl⟩
    · exact ⟨_, .inr rfl, .inr rfl⟩

theorem afterDelimiter_none : afterDelimiter text = none ↔
    ∀ delimiter ∈ delimiters, ¬ delimiter <+: text := by
  rw [Option.eq_none_iff_forall_ne_some]
  constructor
  · rintro h delimiter hmem ⟨rest, rfl⟩
    exact h rest (afterDelimiter_iff.mpr ⟨delimiter, hmem, rfl⟩)
  · intro h rest hrest
    obtain ⟨delimiter, hmem, rfl⟩ := afterDelimiter_iff.mp hrest
    exact h delimiter hmem (List.prefix_append _ _)

theorem afterDelimiter_append (h : afterDelimiter text = some rest) (more : List Char) :
    afterDelimiter (text ++ more) = some (rest ++ more) := by
  obtain ⟨delimiter, hmem, rfl⟩ := afterDelimiter_iff.mp h
  exact afterDelimiter_iff.mpr ⟨delimiter, hmem, List.append_assoc ..⟩

/-- What begins a delimiter without being one has no match after its first place. -/
theorem cutDelimiter_begun : ∀ delimiter ∈ delimiters, ∀ text ∈ delimiter.inits,
    text ≠ delimiter → cutDelimiter text.tail = none := by decide

/-- A text whose first place matches only once more comes has no match after that place. -/
theorem cutDelimiter_tail {more : List Char} (h : afterDelimiter text = none)
    (hmore : afterDelimiter (text ++ more) ≠ none) : cutDelimiter text.tail = none := by
  obtain ⟨rest, hrest⟩ := Option.ne_none_iff_exists'.mp hmore
  obtain ⟨delimiter, hmem, heq⟩ := afterDelimiter_iff.mp hrest
  have hnot := afterDelimiter_none.mp h delimiter hmem
  rcases List.append_eq_append_iff.mp heq with ⟨missing, hdelimiter, -⟩ | ⟨after, htext, -⟩
  · refine cutDelimiter_begun delimiter hmem text ?_ fun heq => hnot (heq ▸ List.prefix_rfl)
    exact (List.mem_inits _ _).mpr ⟨missing, hdelimiter.symm⟩
  · exact absurd ⟨after, htext.symm⟩ hnot

/-- **The first match stays the first one.** -/
theorem cutDelimiter_append (h : cutDelimiter text = some (frame, rest)) (more : List Char) :
    cutDelimiter (text ++ more) = some (frame, rest ++ more) := by
  induction text generalizing frame with
  | nil => cases h
  | cons c text ih =>
      simp only [cutDelimiter] at h
      split at h
      · next hafter =>
          cases h
          have hlonger := afterDelimiter_append hafter more
          rw [List.cons_append] at hlonger ⊢
          simp only [cutDelimiter, hlonger]
      · next hnone =>
          obtain ⟨⟨before, after⟩, hcut, heq⟩ := Option.map_eq_some_iff.mp h
          cases heq
          have hstill : afterDelimiter (c :: text ++ more) = none := by
            by_contra hsome
            have htail := cutDelimiter_tail hnone hsome
            rw [List.tail_cons, hcut] at htail
            cases htail
          rw [List.cons_append] at hstill ⊢
          simp only [cutDelimiter, hstill, ih hcut, Option.map_some]

/-! ## Frames -/

theorem cutFrames_none (h : cutDelimiter text = none) : cutFrames text = ([], text) := by
  rw [cutFrames]
  split
  · rfl
  · next heq =>
      rw [h] at heq
      cases heq

theorem cutFrames_some (h : cutDelimiter text = some (frame, rest)) :
    cutFrames text = (frame :: (cutFrames rest).1, (cutFrames rest).2) := by
  rw [cutFrames]
  split
  · next heq =>
      rw [h] at heq
      cases heq
  · next heq =>
      rw [h] at heq
      cases heq
      rfl

theorem cutFrames_append (text more : List Char) :
    cutFrames (text ++ more) =
      ((cutFrames text).1 ++ (cutFrames ((cutFrames text).2 ++ more)).1,
        (cutFrames ((cutFrames text).2 ++ more)).2) := by
  fun_induction cutFrames text with
  | case1 text hcut => rw [List.nil_append]
  | case2 text frame rest hcut frames left hrest ih =>
      rw [cutFrames_some (cutDelimiter_append hcut more), ih, hrest]
      rfl

/-! ## Pieces -/

theorem noMatch_of_none (h : cutDelimiter text = none) : NoMatchBefore text.length text := by
  induction text with
  | nil => exact fun i hi => absurd hi (Nat.not_lt_zero i)
  | cons c text ih =>
      simp only [cutDelimiter] at h
      split at h
      · cases h
      · next hnone =>
          intro i hi
          cases i with
          | zero => exact afterDelimiter_none.mp hnone
          | succ i => exact ih (Option.map_eq_none_iff.mp h) i (Nat.lt_of_succ_lt_succ hi)

theorem piece_of_some (h : cutDelimiter text = some (frame, rest)) :
    ∃ delimiter ∈ delimiters, text = frame ++ delimiter ++ rest ∧
      NoMatchBefore frame.length text := by
  induction text generalizing frame with
  | nil => cases h
  | cons c text ih =>
      simp only [cutDelimiter] at h
      split at h
      · next hafter =>
          cases h
          obtain ⟨delimiter, hmem, heq⟩ := afterDelimiter_iff.mp hafter
          exact ⟨delimiter, hmem, heq, fun i hi => absurd hi (Nat.not_lt_zero i)⟩
      · next hnone =>
          obtain ⟨⟨before, after⟩, hcut, heq⟩ := Option.map_eq_some_iff.mp h
          cases heq
          obtain ⟨delimiter, hmem, rfl, hbefore⟩ := ih hcut
          refine ⟨delimiter, hmem, rfl, fun i hi => ?_⟩
          cases i with
          | zero => exact afterDelimiter_none.mp hnone
          | succ i => exact hbefore i (Nat.lt_of_succ_lt_succ hi)

theorem cutFrames_pieces (text : List Char) :
    Pieces text (cutFrames text).1 (cutFrames text).2 := by
  fun_induction cutFrames text with
  | case1 text hcut => exact .last (noMatch_of_none hcut)
  | case2 text frame rest hcut frames left hrest ih =>
      obtain ⟨delimiter, hmem, rfl, hbefore⟩ := piece_of_some hcut
      rw [hrest] at ih
      exact .piece hmem hbefore ih

/-! ## Pushes -/

namespace BoundedSseFrameBuffer

variable {buffer : BoundedSseFrameBuffer}

theorem push_append (buffer : BoundedSseFrameBuffer) (chunk more : List UInt8) :
    let first := buffer.push chunk
    let second := first.2.push more
    (buffer.push (chunk ++ more)).1.frames = first.1.frames ++ second.1.frames ∧
      (buffer.push (chunk ++ more)).1.overflow = second.1.overflow ∧
      (buffer.push (chunk ++ more)).2 = second.2 := by
  simp only [push, TextDecoder.decode_append]
  rw [← List.append_assoc, cutFrames_append]
  exact ⟨rfl, rfl, rfl⟩

/-- The frames of some pushes, one after the other. -/
def framesOf (pushed : List Pushed) : List (List Char) := pushed.flatMap (·.frames)

theorem pushes_cons (buffer : BoundedSseFrameBuffer) (chunk : List UInt8)
    (chunks : List (List UInt8)) :
    framesOf (buffer.pushes (chunk :: chunks)).1 =
        (buffer.push (chunk :: chunks).flatten).1.frames ∧
      (buffer.pushes (chunk :: chunks)).2 = (buffer.push (chunk :: chunks).flatten).2 := by
  induction chunks generalizing buffer chunk with
  | nil =>
      rw [List.flatten_cons, List.flatten_nil, List.append_nil]
      exact ⟨List.append_nil _, rfl⟩
  | cons more chunks ih =>
      obtain ⟨hframes, hlast⟩ := ih (buffer.push chunk).2 more
      obtain ⟨hwhole, -, hbuffer⟩ := push_append buffer chunk (more :: chunks).flatten
      rw [List.flatten_cons, hwhole, hbuffer, ← hframes, ← hlast]
      exact ⟨rfl, rfl⟩

/-- **The frames do not depend on the chunks.** Those of the pushes are those of one push of the
whole stream, which are the pieces of its text, and the same text is left. -/
theorem pushes_frames (maxFrameChars : Nat) (chunks : List (List UInt8)) :
    let each := (new maxFrameChars).pushes chunks
    let whole := (new maxFrameChars).push chunks.flatten
    framesOf each.1 = whole.1.frames ∧ each.2.buffered = whole.2.buffered ∧
      Pieces (TextDecoder.new.decode chunks.flatten).1 whole.1.frames whole.2.buffered := by
  have hpieces := cutFrames_pieces (TextDecoder.new.decode chunks.flatten).1
  cases chunks with
  | nil =>
      have hempty : cutFrames [] = ([], []) := cutFrames_none rfl
      refine ⟨?_, ?_, hpieces⟩
      · show [] = (cutFrames []).1
        rw [hempty]
      · show [] = (cutFrames []).2
        rw [hempty]
  | cons chunk chunks =>
      obtain ⟨hframes, hlast⟩ := pushes_cons (new maxFrameChars) chunk chunks
      exact ⟨hframes, congrArg buffered hlast, hpieces⟩

end BoundedSseFrameBuffer

end OmniRush.Engine
