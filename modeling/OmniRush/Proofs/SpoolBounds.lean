import OmniRush.Uploader.Spool

/-!
# The bounds of the spool

A crash between an envelope and its record leaves an envelope without one: a listing goes by
the records, so it is never listed, never counted and never removed (`envelope_without_record`).
A record without an envelope does no harm, the next listing removes it.

Where no crash comes while an envelope has no record, after every `enforceSpoolBounds` the
folder holds pairs, each class is within its own bounds, and what was dropped of a class is
older than what was kept of it (`spool_bounded`). While an entry is on its way out, what holds
is said of the folder without it: its two files may go in either order.
-/

namespace OmniRush.Uploader

variable {limits : SpoolLimits} {s t : Spool} {records left entries : List SpoolMeta}
  {envelopes : List (Nat × Nat)} {id : Nat}

/-! ## What each stage can count on -/

/-- Every envelope has its record. -/
def Owned (records : List SpoolMeta) (envelopes : List (Nat × Nat)) : Prop :=
  ∀ e ∈ envelopes, ∃ m ∈ records, m.id = e.1

instance : Decidable (Owned records envelopes) :=
  inferInstanceAs (Decidable (∀ e ∈ envelopes, ∃ m ∈ records, m.id = e.1))

/-- Where there is an envelope it has the size the entry says. -/
def Sized (entries : List SpoolMeta) (envelopes : List (Nat × Nat)) : Prop :=
  ∀ m ∈ entries, ∀ e ∈ envelopes, e.1 = m.id → e.2 = m.bytes

def Paired (records : List SpoolMeta) (envelopes : List (Nat × Nat)) : Prop :=
  ∀ id, (∃ m ∈ records, m.id = id) ↔ ∃ e ∈ envelopes, e.1 = id

def Within (limits : SpoolLimits) (trace : Bool) (entries : List SpoolMeta) : Prop :=
  entries.length ≤ limits.maxEntries trace ∧ totalBytes entries ≤ limits.maxBytes trace

/-- A listing under way: the ids it has not looked at and the entries it has found. -/
structure Listing (ids : List Nat) (entries records : List SpoolMeta)
    (envelopes : List (Nat × Nat)) : Prop where
  nodup : ids.Nodup
  distinct : (entries.map (·.id)).Nodup
  found : ∀ m ∈ entries, m ∈ records ∧ m.id ∉ ids ∧ ∃ e ∈ envelopes, e.1 = m.id
  all : ∀ m ∈ records, m.id ∈ ids ∨ m ∈ entries

/-- What is left of a listing: the youngest traces and the youngest of the others. -/
structure Remaining (entries traces others records : List SpoolMeta) : Prop where
  sorted : entries.Pairwise (·.id < ·.id)
  tracesLeft : traces <:+ entries.filter (·.isClass true)
  othersLeft : others <:+ entries.filter (·.isClass false)
  mem : ∀ m, m ∈ records ↔ m ∈ traces ∨ m ∈ others

def withoutRecord (id : Nat) (records : List SpoolMeta) : List SpoolMeta :=
  records.filter fun m => m.id ≠ id

def withoutEnvelope (id : Nat) (envelopes : List (Nat × Nat)) : List (Nat × Nat) :=
  envelopes.filter fun e => e.1 ≠ id

/-- While an entry is removed, the folder without it is what the next stage counts on. -/
def StageOk (limits : SpoolLimits) : Stage → List SpoolMeta → List (Nat × Nat) → Prop
  | .idle, records, envelopes | .reading _, records, envelopes => Owned records envelopes
  | .move entry, records, envelopes =>
      Owned records envelopes ∧ entry.id ∉ records.map (·.id) ∧ entry.id ∉ envelopes.map (·.1)
  | .record entry, records, envelopes =>
      entry.id ∉ records.map (·.id) ∧
        ∀ e ∈ envelopes, e = (entry.id, entry.bytes) ∨ ∃ m ∈ records, m.id = e.1
  | .listing ids entries _, records, envelopes =>
      Owned records envelopes ∧ Listing ids entries records envelopes
  | .bounding entries true left count total, records, envelopes =>
      Paired records envelopes ∧ count = left.length ∧ total = totalBytes left ∧
        Remaining entries left (entries.filter (·.isClass false)) records
  | .bounding entries false left count total, records, envelopes =>
      Paired records envelopes ∧ count = left.length ∧ total = totalBytes left ∧
        ∃ traces, Within limits true traces ∧ Remaining entries traces left records
  | .bounded entries, records, envelopes =>
      Paired records envelopes ∧ ∃ traces others, Within limits true traces ∧
        Within limits false others ∧ Remaining entries traces others records
  | .stamping left _, records, envelopes => Owned records envelopes ∧ Sized left envelopes
  | .rewrite entry, records, envelopes => Owned records envelopes ∧ Sized [entry] envelopes
  | .removing id record envelope next, records, envelopes =>
      StageOk limits next (withoutRecord id records) (withoutEnvelope id envelopes) ∧
        (∀ entry, next ≠ .move entry) ∧ (record = false → id ∉ records.map (·.id)) ∧
        (envelope = false → id ∉ envelopes.map (·.1))

structure Inv (limits : SpoolLimits) (s : Spool) : Prop where
  distinct : (s.records.map (·.id)).Nodup
  sized : Sized s.records s.envelopes
  entries : Sized s.entries s.envelopes
  fresh : ∀ entry, s.stage = .move entry → entry.id ∉ s.entries.map (·.id)
  stage : StageOk limits s.stage s.records s.envelopes

/-! ## Folders -/

theorem mem_withoutRecord {m : SpoolMeta} :
    m ∈ withoutRecord id records ↔ m ∈ records ∧ m.id ≠ id := by
  simp [withoutRecord]

theorem mem_withoutEnvelope {e : Nat × Nat} :
    e ∈ withoutEnvelope id envelopes ↔ e ∈ envelopes ∧ e.1 ≠ id := by
  simp [withoutEnvelope]

theorem withoutRecord_of_notMem (h : id ∉ records.map (·.id)) :
    withoutRecord id records = records :=
  List.filter_eq_self.mpr fun m hm => by
    have hne : m.id ≠ id := fun heq => h (heq ▸ List.mem_map_of_mem hm)
    simpa using hne

theorem withoutEnvelope_of_notMem (h : id ∉ envelopes.map (·.1)) :
    withoutEnvelope id envelopes = envelopes :=
  List.filter_eq_self.mpr fun e he => by
    have hne : e.1 ≠ id := fun heq => h (heq ▸ List.mem_map_of_mem he)
    simpa using hne

theorem notMem_withoutRecord : id ∉ (withoutRecord id records).map (·.id) := by
  simp [withoutRecord]

theorem notMem_withoutEnvelope : id ∉ (withoutEnvelope id envelopes).map (·.1) := by
  simp [withoutEnvelope]

theorem Owned.without (h : Owned records envelopes) :
    Owned (withoutRecord id records) (withoutEnvelope id envelopes) := by
  intro e he
  obtain ⟨he, hne⟩ := mem_withoutEnvelope.mp he
  obtain ⟨m, hm, heq⟩ := h e he
  exact ⟨m, mem_withoutRecord.mpr ⟨hm, heq ▸ hne⟩, heq⟩

theorem Paired.without (h : Paired records envelopes) :
    Paired (withoutRecord id records) (withoutEnvelope id envelopes) := by
  intro i
  constructor
  · rintro ⟨m, hm, rfl⟩
    obtain ⟨hm, hne⟩ := mem_withoutRecord.mp hm
    obtain ⟨e, he, heq⟩ := (h m.id).mp ⟨m, hm, rfl⟩
    exact ⟨e, mem_withoutEnvelope.mpr ⟨he, heq ▸ hne⟩, heq⟩
  · rintro ⟨e, he, rfl⟩
    obtain ⟨he, hne⟩ := mem_withoutEnvelope.mp he
    obtain ⟨m, hm, heq⟩ := (h e.1).mpr ⟨e, he, rfl⟩
    exact ⟨m, mem_withoutRecord.mpr ⟨hm, heq ▸ hne⟩, heq⟩

theorem Paired.owned (h : Paired records envelopes) : Owned records envelopes :=
  fun e he => (h e.1).mpr ⟨e, he, rfl⟩

theorem Sized.subset {l l' : List SpoolMeta} (h : Sized l envelopes) (hsub : ∀ m ∈ l', m ∈ l) :
    Sized l' envelopes := fun m hm => h m (hsub m hm)

theorem Sized.without (h : Sized records envelopes) :
    Sized records (withoutEnvelope id envelopes) :=
  fun m hm e he => h m hm e (mem_withoutEnvelope.mp he).1

theorem Owned.write {entry : SpoolMeta} (h : Owned records envelopes) :
    Owned (entry :: withoutRecord entry.id records) envelopes := by
  intro e he
  obtain ⟨m, hm, heq⟩ := h e he
  by_cases hid : m.id = entry.id
  · exact ⟨entry, List.mem_cons_self .., hid ▸ heq⟩
  · exact ⟨m, List.mem_cons_of_mem _ (mem_withoutRecord.mpr ⟨hm, hid⟩), heq⟩

theorem distinct_write {entry : SpoolMeta} (h : (records.map (·.id)).Nodup) :
    ((entry :: withoutRecord entry.id records).map (·.id)).Nodup :=
  List.nodup_cons.mpr ⟨notMem_withoutRecord, h.sublist (List.filter_sublist.map _)⟩

theorem Sized.write {entry : SpoolMeta} (h : Sized records envelopes)
    (hentry : Sized [entry] envelopes) :
    Sized (entry :: withoutRecord entry.id records) envelopes := by
  intro m hm
  rcases List.mem_cons.mp hm with rfl | hm
  · exact hentry m (List.mem_singleton.mpr rfl)
  · exact h m (mem_withoutRecord.mp hm).1

theorem eq_of_id {m m' : SpoolMeta} (h : (records.map (·.id)).Nodup) (hm : m ∈ records)
    (hm' : m' ∈ records) (heq : m.id = m'.id) : m = m' :=
  List.inj_on_of_nodup_map h hm hm' heq

/-! ## A listing -/

theorem Listing.begin (h : (records.map (·.id)).Nodup) :
    Listing (records.map (·.id)) [] records envelopes where
  nodup := h
  distinct := .nil
  found m hm := by cases hm
  all m hm := .inl (List.mem_map_of_mem hm)

theorem Listing.keep {ids : List Nat} {m : SpoolMeta}
    (h : Listing (id :: ids) entries records envelopes)
    (hdistinct : (records.map (·.id)).Nodup) (hm : m ∈ records) (hid : m.id = id)
    (he : ∃ e ∈ envelopes, e.1 = id) : Listing ids (entries ++ [m]) records envelopes := by
  obtain ⟨hids, hrest⟩ := List.nodup_cons.mp h.nodup
  refine ⟨hrest, ?_, fun m' hm' => ?_, fun m' hm' => ?_⟩
  · rw [List.map_append, List.nodup_append]
    refine ⟨h.distinct, List.nodup_singleton _, fun i hi j hj => ?_⟩
    obtain ⟨m', hm', rfl⟩ := List.mem_map.mp hi
    rw [List.map_singleton, List.mem_singleton] at hj
    rw [hj, hid]
    exact fun heq => (h.found m' hm').2.1 (heq ▸ List.mem_cons_self ..)
  · rcases List.mem_append.mp hm' with hm' | hm'
    · obtain ⟨hrecord, hout, hpair⟩ := h.found m' hm'
      exact ⟨hrecord, fun hmem => hout (List.mem_cons_of_mem _ hmem), hpair⟩
    · obtain rfl := List.mem_singleton.mp hm'
      exact ⟨hm, hid ▸ hids, hid ▸ he⟩
  · rcases h.all m' hm' with hmem | hmem
    · rcases List.mem_cons.mp hmem with heq | hmem
      · have hsame := eq_of_id hdistinct hm' hm (heq.trans hid.symm)
        exact .inr (List.mem_append_right _ (List.mem_singleton.mpr hsame))
      · exact .inl hmem
    · exact .inr (List.mem_append_left _ hmem)

theorem Listing.drop {ids : List Nat} (h : Listing (id :: ids) entries records envelopes) :
    Listing ids entries (withoutRecord id records) (withoutEnvelope id envelopes) := by
  obtain ⟨-, hrest⟩ := List.nodup_cons.mp h.nodup
  refine ⟨hrest, h.distinct, fun m hm => ?_, fun m hm => ?_⟩
  · obtain ⟨hrecord, hout, e, he, heq⟩ := h.found m hm
    rw [List.mem_cons, not_or] at hout
    exact ⟨mem_withoutRecord.mpr ⟨hrecord, hout.1⟩, hout.2, e,
      mem_withoutEnvelope.mpr ⟨he, heq ▸ hout.1⟩, heq⟩
  · obtain ⟨hm, hne⟩ := mem_withoutRecord.mp hm
    exact (h.all m hm).imp_left fun hmem => (List.mem_cons.mp hmem).resolve_left hne

def byId (entries : List SpoolMeta) : List SpoolMeta :=
  entries.insertionSort fun left right => left.id ≤ right.id

theorem byId_perm (entries : List SpoolMeta) : (byId entries).Perm entries :=
  List.perm_insertionSort _ _

theorem byId_sorted (h : (entries.map (·.id)).Nodup) : (byId entries).Pairwise (·.id < ·.id) := by
  have hle : (byId entries).Pairwise (·.id ≤ ·.id) := by
    have htotal : Std.Total fun left right : SpoolMeta => left.id ≤ right.id :=
      ⟨fun a b => Nat.le_total a.id b.id⟩
    have htrans : IsTrans SpoolMeta fun left right => left.id ≤ right.id :=
      ⟨fun a b c => Nat.le_trans⟩
    exact List.pairwise_insertionSort _ _
  have hne : (byId entries).Pairwise (·.id ≠ ·.id) := by
    have hnodup : ((byId entries).map (·.id)).Nodup := ((byId_perm entries).map _).nodup_iff.mpr h
    rwa [List.Nodup, List.pairwise_map] at hnodup
  exact (hle.and hne).imp fun h => Nat.lt_of_le_of_ne h.1 h.2

/-! ## The bounds -/

theorem within_nil (trace : Bool) : Within limits trace [] :=
  ⟨Nat.zero_le _, Int.natCast_nonneg _⟩

theorem Remaining.whole {r : List SpoolMeta} (hsorted : entries.Pairwise (·.id < ·.id))
    (hmem : ∀ m, m ∈ r ↔ m ∈ entries) :
    Remaining entries (entries.filter (·.isClass true)) (entries.filter (·.isClass false)) r where
  sorted := hsorted
  tracesLeft := List.suffix_refl _
  othersLeft := List.suffix_refl _
  mem m := by
    rw [hmem, List.mem_filter, List.mem_filter, ← and_or_left]
    refine (and_iff_left ?_).symm
    rw [SpoolMeta.isClass, SpoolMeta.isClass]
    cases decide (m.snapshotType = "trace") <;> simp

theorem isClass_ne {m m' : SpoolMeta} (h : m.isClass true = true) (h' : m'.isClass false = true) :
    m ≠ m' := by
  rintro rfl
  rw [SpoolMeta.isClass] at h h'
  cases hclass : decide (m.snapshotType = "trace") <;> simp [hclass] at h h'

theorem mem_of_suffix_filter {l : List SpoolMeta} {p : SpoolMeta → Bool}
    (h : l <:+ entries.filter p) {m : SpoolMeta} (hm : m ∈ l) : m ∈ entries ∧ p m = true :=
  List.mem_filter.mp (h.subset hm)

theorem id_inj (h : entries.Pairwise (·.id < ·.id)) {m m' : SpoolMeta} (hm : m ∈ entries)
    (hm' : m' ∈ entries) (heq : m.id = m'.id) : m = m' := by
  have hnodup : (entries.map (·.id)).Nodup := by
    rw [List.Nodup, List.pairwise_map]
    exact h.imp fun hlt => Nat.ne_of_lt hlt
  exact List.inj_on_of_nodup_map hnodup hm hm' heq

theorem Remaining.dropTrace {first : SpoolMeta} {rest others r : List SpoolMeta}
    (h : Remaining entries (first :: rest) others r) :
    Remaining entries rest others (withoutRecord first.id r) := by
  have hfirst := mem_of_suffix_filter h.tracesLeft (List.mem_cons_self ..)
  have hsorted : (first :: rest).Pairwise (·.id < ·.id) :=
    (h.sorted.filter _).sublist h.tracesLeft.sublist
  refine ⟨h.sorted, (List.suffix_cons first rest).trans h.tracesLeft, h.othersLeft, fun m => ?_⟩
  rw [mem_withoutRecord, h.mem, List.mem_cons]
  constructor
  · rintro ⟨(rfl | hm) | hm, hne⟩
    · exact absurd rfl hne
    · exact .inl hm
    · exact .inr hm
  · rintro (hm | hm)
    · exact ⟨.inl (.inr hm), Nat.ne_of_gt ((List.pairwise_cons.mp hsorted).1 m hm)⟩
    · obtain ⟨hentry, hclass⟩ := mem_of_suffix_filter h.othersLeft hm
      exact ⟨.inr hm, fun heq =>
        isClass_ne hfirst.2 hclass (id_inj h.sorted hfirst.1 hentry heq.symm)⟩

theorem Remaining.dropOther {first : SpoolMeta} {rest traces r : List SpoolMeta}
    (h : Remaining entries traces (first :: rest) r) :
    Remaining entries traces rest (withoutRecord first.id r) := by
  have hfirst := mem_of_suffix_filter h.othersLeft (List.mem_cons_self ..)
  have hsorted : (first :: rest).Pairwise (·.id < ·.id) :=
    (h.sorted.filter _).sublist h.othersLeft.sublist
  refine ⟨h.sorted, h.tracesLeft, (List.suffix_cons first rest).trans h.othersLeft, fun m => ?_⟩
  rw [mem_withoutRecord, h.mem, List.mem_cons]
  constructor
  · rintro ⟨hm | rfl | hm, hne⟩
    · exact .inl hm
    · exact absurd rfl hne
    · exact .inr hm
  · rintro (hm | hm)
    · obtain ⟨hentry, hclass⟩ := mem_of_suffix_filter h.tracesLeft hm
      exact ⟨.inl hm, fun heq => isClass_ne hclass hfirst.2 (id_inj h.sorted hentry hfirst.1 heq)⟩
    · exact ⟨.inr (.inr hm), Nat.ne_of_gt ((List.pairwise_cons.mp hsorted).1 m hm)⟩

theorem stageOk_nextClass {trace : Bool} {left : List SpoolMeta} {count total : Int}
    (h : StageOk limits (.bounding entries trace left count total) records envelopes)
    (hwithin : Within limits trace left) :
    StageOk limits (if trace then Spool.boundClass entries false else .bounded entries)
      records envelopes := by
  cases trace with
  | true =>
      obtain ⟨hpaired, -, -, hremaining⟩ := h
      exact ⟨hpaired, rfl, rfl, left, hwithin, hremaining⟩
  | false =>
      obtain ⟨hpaired, -, -, traces, htraces, hremaining⟩ := h
      exact ⟨hpaired, traces, left, htraces, hwithin, hremaining⟩

theorem StageOk.count {trace : Bool} {left : List SpoolMeta} {count total : Int}
    (h : StageOk limits (.bounding entries trace left count total) records envelopes) :
    count = left.length ∧ total = totalBytes left := by
  cases trace with
  | true => exact ⟨h.2.1, h.2.2.1⟩
  | false => exact ⟨h.2.1, h.2.2.1⟩

theorem stageOk_drop {trace : Bool} {first : SpoolMeta} {rest : List SpoolMeta} {count total : Int}
    (h : StageOk limits (.bounding entries trace (first :: rest) count total) records envelopes) :
    StageOk limits (.bounding entries trace rest (count - 1) (total - first.bytes))
      (withoutRecord first.id records) (withoutEnvelope first.id envelopes) := by
  obtain ⟨hcount, htotal⟩ := h.count
  have hcount' : count - 1 = rest.length := by
    rw [hcount, List.length_cons]
    omega
  have htotal' : total - first.bytes = totalBytes rest := by
    rw [htotal, totalBytes, totalBytes, List.map_cons, List.sum_cons]
    omega
  cases trace with
  | true =>
      obtain ⟨hpaired, -, -, hremaining⟩ := h
      exact ⟨hpaired.without, hcount', htotal', hremaining.dropTrace⟩
  | false =>
      obtain ⟨hpaired, -, -, traces, htraces, hremaining⟩ := h
      exact ⟨hpaired.without, hcount', htotal', traces, htraces, hremaining.dropOther⟩

/-! ## Steps -/

theorem Inv.stay (h : Inv limits s) {stage : Stage} (hmove : ∀ entry, stage ≠ .move entry)
    (hstage : StageOk limits stage s.records s.envelopes) : Inv limits { s with stage } :=
  ⟨h.distinct, h.sized, h.entries, fun entry heq => absurd heq (hmove entry), hstage⟩

theorem Inv.move (h : Inv limits s) {entry : SpoolMeta} (hstage : s.stage = .move entry) :
    Inv limits { s with
      envelopes := (entry.id, entry.bytes) :: s.envelopes.filter fun e => e.1 ≠ entry.id
      stage := .record entry } := by
  have hok := h.stage
  rw [hstage] at hok
  obtain ⟨howned, hrecord, henvelope⟩ := hok
  have hfresh := h.fresh entry hstage
  have hsized : ∀ l : List SpoolMeta, Sized l s.envelopes → entry.id ∉ l.map (·.id) →
      Sized l ((entry.id, entry.bytes) :: s.envelopes.filter fun e => e.1 ≠ entry.id) := by
    intro l hl hout m hm e he heq
    rcases List.mem_cons.mp he with rfl | he
    · exact absurd (List.mem_map.mpr ⟨m, hm, heq.symm⟩) hout
    · exact hl m hm e (List.mem_of_mem_filter he) heq
  refine ⟨h.distinct, hsized _ h.sized hrecord, hsized _ h.entries hfresh,
    (fun entry' heq => by cases heq), hrecord, fun e he => ?_⟩
  rcases List.mem_cons.mp he with rfl | he
  · exact .inl rfl
  · exact .inr (howned e (List.mem_of_mem_filter he))

theorem Inv.record (h : Inv limits s) {entry : SpoolMeta} (hstage : s.stage = .record entry) :
    Inv limits { s.writeSpoolMeta entry with stage := .reading .bounds } := by
  have hok := h.stage
  rw [hstage] at hok
  obtain ⟨hrecord, howned⟩ := hok
  have hsame : withoutRecord entry.id s.records = s.records := withoutRecord_of_notMem hrecord
  refine ⟨distinct_write h.distinct, h.sized.write fun m hm e he heq => ?_, h.entries,
    (fun entry' heq => by cases heq), fun e he => ?_⟩
  · obtain rfl := List.mem_singleton.mp hm
    rcases howned e he with rfl | ⟨m', hm', heq'⟩
    · rfl
    · exact absurd (List.mem_map.mpr ⟨m', hm', heq'.trans heq⟩) hrecord
  · rcases howned e he with rfl | ⟨m, hm, heq⟩
    · exact ⟨entry, List.mem_cons_self .., rfl⟩
    · have hm' : m ∈ withoutRecord entry.id s.records := by rwa [hsame]
      exact ⟨m, List.mem_cons_of_mem _ hm', heq⟩

theorem Inv.listed (h : Inv limits s) {found : List SpoolMeta} {purpose : Purpose}
    (hstage : s.stage = .listing [] found purpose) :
    Inv limits (s.listed (byId found) purpose) := by
  have hok := h.stage
  rw [hstage] at hok
  obtain ⟨howned, hlisting⟩ := hok
  have hmem : ∀ m, m ∈ byId found ↔ m ∈ found := fun m => (byId_perm found).mem_iff
  have hsized : Sized (byId found) s.envelopes :=
    h.sized.subset fun m hm => (hlisting.found m ((hmem m).mp hm)).1
  cases purpose with
  | drain => exact ⟨h.distinct, h.sized, hsized, fun entry heq => (by cases heq), howned⟩
  | keep account => exact h.stay (fun entry heq => (by cases heq)) ⟨howned, hsized⟩
  | bounds =>
      refine h.stay (fun entry heq => (by cases heq)) ⟨fun id => ⟨?_, ?_⟩, rfl, rfl, ?_⟩
      · rintro ⟨m, hm, rfl⟩
        exact (hlisting.found m ((hlisting.all m hm).resolve_left List.not_mem_nil)).2.2
      · rintro ⟨e, he, rfl⟩
        exact howned e he
      · refine Remaining.whole (byId_sorted hlisting.distinct) fun m => ?_
        rw [hmem]
        exact ⟨fun hm => (hlisting.all m hm).resolve_left List.not_mem_nil,
          fun hm => (hlisting.found m hm).1⟩

theorem Inv.rewrite (h : Inv limits s) {entry : SpoolMeta} (hsized : Sized [entry] s.envelopes)
    {stage : Stage} (hmove : ∀ entry, stage ≠ .move entry)
    (hstage : StageOk limits stage (entry :: withoutRecord entry.id s.records) s.envelopes) :
    Inv limits { s.writeSpoolMeta entry with stage } :=
  ⟨distinct_write h.distinct, h.sized.write hsized, h.entries,
    fun entry' heq => absurd heq (hmove entry'), hstage⟩

theorem hasEnvelope_iff : s.hasEnvelope id = true ↔ ∃ e ∈ s.envelopes, e.1 = id := by
  simp [Spool.hasEnvelope]

theorem Inv.proceed (h : Inv limits s) (hstep : s.proceed limits = some t) : Inv limits t := by
  have hok := h.stage
  unfold Spool.proceed at hstep
  split at hstep
  · cases hstep
  · cases hstep
  · next entry hstage =>
      cases hstep
      exact h.move hstage
  · next entry hstage =>
      cases hstep
      exact h.record hstage
  · next purpose hstage =>
      cases hstep
      rw [hstage] at hok
      exact h.stay (fun entry heq => (by cases heq)) ⟨hok, .begin h.distinct⟩
  · next found purpose hstage =>
      cases hstep
      exact h.listed hstage
  · next id ids found purpose hstage =>
      rw [hstage] at hok
      obtain ⟨howned, hlisting⟩ := hok
      have hdrop : Inv limits { s with
          stage := .removing id true true (.listing ids found purpose) } :=
        h.stay (fun entry heq => (by cases heq)) ⟨⟨howned.without, hlisting.drop⟩,
          (fun entry heq => by cases heq), (fun heq => by cases heq), (fun heq => by cases heq)⟩
      split at hstep
      · next m hfind =>
          have hid : m.id = id := by simpa using List.find?_some hfind
          split at hstep
          · next henvelope =>
              cases hstep
              exact h.stay (fun entry heq => (by cases heq)) ⟨howned, hlisting.keep h.distinct
                (List.mem_of_find?_eq_some hfind) hid (hasEnvelope_iff.mp henvelope)⟩
          · cases hstep
            exact hdrop
      · cases hstep
        exact hdrop
  · next found trace left count total hstage =>
      rw [hstage] at hok
      obtain ⟨hcount, htotal⟩ := hok.count
      have hmove : ∀ entry, (if trace then Spool.boundClass found false else .bounded found) ≠
          .move entry := by
        intro entry heq
        cases trace <;> cases heq
      split at hstep
      · next first rest =>
          split at hstep
          · next hwithin =>
              cases hstep
              rw [hcount, htotal] at hwithin
              exact h.stay hmove (stageOk_nextClass hok ⟨Int.ofNat_le.mp hwithin.1, hwithin.2⟩)
          · cases hstep
            exact h.stay (fun entry heq => (by cases heq))
              ⟨stageOk_drop hok, (fun entry heq => by cases heq), (fun heq => by cases heq),
                (fun heq => by cases heq)⟩
      · cases hstep
        exact h.stay hmove (stageOk_nextClass hok (within_nil trace))
  · next found hstage =>
      cases hstep
      rw [hstage] at hok
      exact h.stay (fun entry heq => (by cases heq)) hok.1.owned
  · next left account hstage =>
      rw [hstage] at hok
      obtain ⟨howned, hsized⟩ := hok
      split at hstep
      · next entry rest =>
          have hrest : Sized rest s.envelopes := hsized.subset fun m => List.mem_cons_of_mem _
          split at hstep
          · cases hstep
            exact h.stay (fun entry heq => (by cases heq)) ⟨howned, hrest⟩
          · cases hstep
            refine h.rewrite ?_ (fun entry heq => (by cases heq)) ⟨howned.write, hrest⟩
            intro m hm
            obtain rfl := List.mem_singleton.mp hm
            exact hsized entry (List.mem_cons_self ..)
      · cases hstep
        exact h.stay (fun entry heq => (by cases heq)) howned
  · next entry hstage =>
      rw [hstage] at hok
      split at hstep
      · cases hstep
        exact h.rewrite hok.2 (fun entry heq => (by cases heq)) hok.1.write
      · cases hstep
        exact h.stay (fun entry heq => (by cases heq)) hok.1

theorem Inv.without (h : Inv limits s) {stage : Stage} (hmove : ∀ entry, stage ≠ .move entry)
    (hstage : StageOk limits stage (withoutRecord id s.records) s.envelopes) :
    Inv limits { s with records := withoutRecord id s.records, stage } :=
  ⟨h.distinct.sublist (List.filter_sublist.map _),
    h.sized.subset fun _ hm => (mem_withoutRecord.mp hm).1, h.entries,
    fun entry heq => absurd heq (hmove entry), hstage⟩

theorem Inv.withoutEnvelope (h : Inv limits s) {stage : Stage}
    (hmove : ∀ entry, stage ≠ .move entry)
    (hstage : StageOk limits stage s.records (withoutEnvelope id s.envelopes)) :
    Inv limits { s with envelopes := Uploader.withoutEnvelope id s.envelopes, stage } :=
  ⟨h.distinct, h.sized.without, h.entries.without, fun entry heq => absurd heq (hmove entry),
    hstage⟩

theorem Inv.unlink (h : Inv limits s) {envelope : Bool} (hstep : s.unlink envelope = some t) :
    Inv limits t := by
  have hok := h.stage
  unfold Spool.unlink at hstep
  split at hstep
  · next id z next hstage =>
      rw [hstage] at hok
      obtain ⟨hnext, hmove, -, hz⟩ := hok
      have hrecords : withoutRecord id (withoutRecord id s.records) = withoutRecord id s.records :=
        withoutRecord_of_notMem notMem_withoutRecord
      have henvelopes : Uploader.withoutEnvelope id (Uploader.withoutEnvelope id s.envelopes) =
          Uploader.withoutEnvelope id s.envelopes :=
        withoutEnvelope_of_notMem notMem_withoutEnvelope
      cases envelope with
      | true =>
          cases z with
          | true =>
              cases hstep
              refine h.withoutEnvelope (fun entry heq => by cases heq)
                ⟨?_, hmove, (fun heq => by cases heq), fun _ => notMem_withoutEnvelope⟩
              rwa [henvelopes]
          | false => cases hstep
      | false =>
          cases z with
          | true =>
              cases hstep
              refine h.without (fun entry heq => by cases heq)
                ⟨?_, hmove, (fun _ => notMem_withoutRecord), fun heq => by cases heq⟩
              rwa [hrecords]
          | false =>
              cases hstep
              rw [withoutEnvelope_of_notMem (hz rfl)] at hnext
              exact h.without hmove hnext
  · next id next hstage =>
      rw [hstage] at hok
      obtain ⟨hnext, hmove, hrecord, -⟩ := hok
      cases envelope with
      | true =>
          cases hstep
          rw [withoutRecord_of_notMem (hrecord rfl)] at hnext
          exact h.withoutEnvelope hmove hnext
      | false => cases hstep
  · cases hstep

/-- The folder is left as a crash may find it. -/
def Careful (s : Spool) : SpoolAct → Prop
  | .crash => Owned s.records s.envelopes
  | _ => True

theorem inv_start : Inv limits {} where
  distinct := .nil
  sized m hm := by cases hm
  entries m hm := by cases hm
  fresh entry heq := by cases heq
  stage := fun e he => by cases he

theorem inv_step {act : SpoolAct} (h : Inv limits s) (hcareful : Careful s act)
    (hstep : s.step limits act = some t) : Inv limits t := by
  have hidle : s.stage = .idle → Owned s.records s.envelopes := fun heq => by
    have hok := h.stage
    rwa [heq] at hok
  have hsized : ∀ {entry}, entry ∈ s.entries → ∀ {e}, e.id = entry.id → e.bytes = entry.bytes →
      Sized [e] s.envelopes := by
    intro entry hentry e hid hbytes m hm
    obtain rfl := List.mem_singleton.mp hm
    rw [hid, hbytes]
    exact h.entries entry hentry
  cases act with
  | spool entry =>
      obtain ⟨⟨hstage, hnew⟩, heq⟩ := Option.ite_none_right_eq_some.mp hstep
      cases heq
      rw [List.mem_append, List.mem_append, not_or, not_or] at hnew
      obtain ⟨⟨hrecord, henvelope⟩, hentry⟩ := hnew
      refine ⟨h.distinct, h.sized, h.entries, fun entry' heq => ?_, hidle hstage, hrecord,
        henvelope⟩
      cases heq
      exact hentry
  | list purpose =>
      obtain ⟨hstage, heq⟩ := Option.ite_none_right_eq_some.mp hstep
      cases heq
      exact h.stay (fun entry heq => by cases heq) (hidle hstage)
  | remove entry =>
      obtain ⟨⟨hstage, -⟩, heq⟩ := Option.ite_none_right_eq_some.mp hstep
      cases heq
      exact h.stay (fun entry heq => by cases heq) ⟨(hidle hstage).without,
        (fun entry heq => by cases heq), (fun heq => by cases heq), fun heq => by cases heq⟩
  | attempted entry lastAttemptAt notBefore =>
      obtain ⟨⟨hstage, hentry⟩, heq⟩ := Option.ite_none_right_eq_some.mp hstep
      cases heq
      exact h.stay (fun entry heq => by cases heq) ⟨hidle hstage, hsized hentry rfl rfl⟩
  | own entry account =>
      obtain ⟨⟨hstage, hentry, -⟩, heq⟩ := Option.ite_none_right_eq_some.mp hstep
      cases heq
      have howner : Sized [{ entry with accountId := some account }] s.envelopes :=
        hsized hentry rfl rfl
      refine ⟨h.distinct, h.sized, fun m hm => ?_, (fun entry heq => by cases heq),
        hidle hstage, howner⟩
      obtain ⟨m', hm', rfl⟩ := List.mem_map.mp hm
      split
      · exact howner _ (List.mem_singleton.mpr rfl)
      · exact h.entries m' hm'
  | proceed => exact h.proceed hstep
  | unlink envelope => exact h.unlink hstep
  | crash =>
      cases hstep
      exact ⟨h.distinct, h.sized, (fun m hm => by cases hm), (fun entry heq => by cases heq),
        hcareful⟩

theorem Reach.inv (h : Reach (Spool.step limits) Careful {} s) : Inv limits s :=
  h.invariant (fun _ _ _ hinv hcareful hstep => inv_step hinv hcareful hstep) inv_start

/-! ## The spool after its bounds -/

theorem isClass_eq (m : SpoolMeta) (trace : Bool) :
    m.isClass (!trace) = !m.isClass trace := by
  rw [SpoolMeta.isClass, SpoolMeta.isClass]
  cases decide (m.snapshotType = "trace") <;> cases trace <;> rfl

theorem Within.of_perm {trace : Bool} {l l' : List SpoolMeta} (h : Within limits trace l)
    (hperm : l'.Perm l) : Within limits trace l' := by
  rw [Within, totalBytes, hperm.length_eq, (hperm.map _).sum_eq]
  exact h

theorem Remaining.nodup {traces others r : List SpoolMeta}
    (h : Remaining entries traces others r) : entries.Nodup :=
  h.sorted.imp fun hlt heq => Nat.ne_of_lt hlt (congrArg SpoolMeta.id heq)

theorem Remaining.perm {traces others : List SpoolMeta} (hdistinct : (records.map (·.id)).Nodup)
    (h : Remaining entries traces others records) (trace : Bool) :
    (records.filter (·.isClass trace)).Perm (if trace then traces else others) := by
  have hrecords : records.Nodup := List.Nodup.of_map _ hdistinct
  have hclass : ∀ m : SpoolMeta, m.isClass false = !m.isClass true := fun m => isClass_eq m true
  cases trace with
  | true =>
      refine (List.perm_ext_iff_of_nodup (hrecords.filter _)
        ((h.nodup.filter _).sublist h.tracesLeft.sublist)).mpr fun m => ?_
      rw [List.mem_filter, h.mem]
      constructor
      · rintro ⟨hm | hm, htrace⟩
        · exact hm
        · have hother := (mem_of_suffix_filter h.othersLeft hm).2
          rw [hclass, htrace] at hother
          cases hother
      · exact fun hm => ⟨.inl hm, (mem_of_suffix_filter h.tracesLeft hm).2⟩
  | false =>
      refine (List.perm_ext_iff_of_nodup (hrecords.filter _)
        ((h.nodup.filter _).sublist h.othersLeft.sublist)).mpr fun m => ?_
      rw [List.mem_filter, h.mem]
      constructor
      · rintro ⟨hm | hm, hother⟩
        · have htrace := (mem_of_suffix_filter h.tracesLeft hm).2
          rw [hclass, htrace] at hother
          cases hother
        · exact hm
      · exact fun hm => ⟨.inr hm, (mem_of_suffix_filter h.othersLeft hm).2⟩

theorem lt_of_notMem_suffix {l kept : List SpoolMeta} (hsorted : l.Pairwise (·.id < ·.id))
    (hsuffix : kept <:+ l) {m k : SpoolMeta} (hm : m ∈ l) (hout : m ∉ kept) (hk : k ∈ kept) :
    m.id < k.id := by
  obtain ⟨dropped, rfl⟩ := hsuffix
  exact (List.pairwise_append.mp hsorted).2.2 m ((List.mem_append.mp hm).resolve_right hout) k hk

/-- After its bounds the folder holds pairs, each class is within its own bounds, and what was
dropped of a class is older than what was kept. -/
theorem spool_bounded (h : Reach (Spool.step limits) Careful {} s)
    (hstage : s.stage = .bounded entries) :
    (∀ id, (∃ m ∈ s.records, m.id = id) ↔ ∃ e ∈ s.envelopes, e.1 = id) ∧
      (∀ m ∈ s.records, ∀ e ∈ s.envelopes, e.1 = m.id → e.2 = m.bytes) ∧
      (∀ m ∈ s.records, m ∈ entries) ∧
      ∀ trace, (s.records.filter (·.isClass trace)).length ≤ limits.maxEntries trace ∧
        totalBytes (s.records.filter (·.isClass trace)) ≤ limits.maxBytes trace ∧
        ∀ m ∈ entries, m.isClass trace = true → m ∉ s.records →
          ∀ k ∈ s.records, k.isClass trace = true → m.id < k.id := by
  have hinv := Reach.inv h
  have hok := hinv.stage
  rw [hstage] at hok
  obtain ⟨hpaired, traces, others, htraces, hothers, hremaining⟩ := hok
  refine ⟨hpaired, hinv.sized, fun m hm => ?_, fun trace => ?_⟩
  · rcases (hremaining.mem m).mp hm with hm | hm
    · exact (mem_of_suffix_filter hremaining.tracesLeft hm).1
    · exact (mem_of_suffix_filter hremaining.othersLeft hm).1
  · have hperm := hremaining.perm hinv.distinct trace
    have hwithin : Within limits trace (s.records.filter (·.isClass trace)) := by
      cases trace with
      | true => exact htraces.of_perm hperm
      | false => exact hothers.of_perm hperm
    have hkept : (if trace then traces else others) <:+ entries.filter (·.isClass trace) := by
      cases trace with
      | true => exact hremaining.tracesLeft
      | false => exact hremaining.othersLeft
    refine ⟨hwithin.1, hwithin.2, fun m hm hclass hout k hk hkclass => ?_⟩
    refine lt_of_notMem_suffix (hremaining.sorted.filter _) hkept
      (List.mem_filter.mpr ⟨hm, hclass⟩) (fun hmem => hout ?_)
      (hperm.mem_iff.mp (List.mem_filter.mpr ⟨hk, hkclass⟩))
    exact (List.mem_filter.mp (hperm.mem_iff.mpr hmem)).1

instance : DecidableRel Careful := fun s act => by
  cases act <;> unfold Careful <;> infer_instance

def oneEach : SpoolLimits := ⟨1, 100, 1, 100⟩

def traceEntry (id : Nat) : SpoolMeta := ⟨id, "s", "trace", 1, 10, "", 0, none, none, none⟩

/-- Two uploads are spooled, with room for one. -/
def overBounds : List SpoolAct :=
  [.spool (traceEntry 1)] ++ List.replicate 8 .proceed ++ [.spool (traceEntry 2)] ++
    List.replicate 7 .proceed ++ [.unlink true, .unlink false] ++ List.replicate 2 .proceed

theorem overBounds_bounded : ∃ s, Reach (Spool.step oneEach) Careful {} s ∧
    s.stage = .bounded [traceEntry 1, traceEntry 2] ∧ s.records = [traceEntry 2] ∧
      traceEntry 1 ∉ s.records ∧ ∀ k ∈ s.records, k.isClass true = true → 1 < k.id := by
  have hrun : (runActions (fun s act => if Careful s act then Spool.step oneEach s act else none)
      overBounds {}).any (fun s => s.stage = .bounded [traceEntry 1, traceEntry 2] ∧
        s.records = [traceEntry 2]) = true := by
    decide +kernel
  obtain ⟨s, hs, hend⟩ := exists_of_any hrun
  obtain ⟨hstage, hrecords⟩ := of_decide_eq_true hend
  have hreach := (reach_of_checked hs).1
  have hdropped : traceEntry 1 ∉ s.records := by
    rw [hrecords]
    decide
  exact ⟨s, hreach, hstage, hrecords, hdropped,
    ((spool_bounded hreach hstage).2.2.2 true).2.2 (traceEntry 1) (by decide) (by decide) hdropped⟩

/-- A crash between an envelope and its record, then another upload. -/
def crashBetween : List SpoolAct :=
  [.spool (traceEntry 1), .proceed, .crash, .spool (traceEntry 2)] ++ List.replicate 7 .proceed

/-- The envelope has no record after the bounds. -/
theorem envelope_without_record :
    (runActions (Spool.step oneEach) crashBetween {}).any (fun s =>
      s.stage = .bounded [traceEntry 2] ∧ s.records = [traceEntry 2] ∧ (1, 10) ∈ s.envelopes) =
      true := by
  decide +kernel

end OmniRush.Uploader
