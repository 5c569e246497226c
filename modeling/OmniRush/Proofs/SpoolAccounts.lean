import OmniRush.Uploader.Accounts

/-!
# Spooled uploads and their accounts

A sign-out forgets the account and the lookup, but a lookup that is under way still writes its
answer when it comes: the account that has signed out is then known as the one signed in, and the
next account's drains send its entries.

A run is settled when no lookup answers with an account that is not signed in any more, no sign-out
comes between a capture and the signal its upload takes, and no process ends before a sign-out has
stamped the spool. In every settled run entries are stamped with the account they were captured
under, or as signed out, and only that account's are sent (`sent_to_own_account`).

The invariant looks at what is behind an operation in the queue: an entry without a stamp is of the
account of the first sign-out that waits there, or else of the account signed in (`stamper`).
-/

namespace OmniRush.Uploader

open Accounts

/-! ## The property -/

/-- A stamp is of the account the envelope was captured under, or says that it signed out. -/
def StampOk (e : Spooled) : Prop :=
  ∀ account id, e.captured = some account → e.record.accountId = some id →
    id = account.id ∨ id = signedOutUnknownAccount

/-- A request with the entry's envelope can leave. -/
def Sends (s : Accounts) (e : Spooled) : Prop :=
  ∃ account entries, s.drain = some ⟨s.signOuts, .sending account e entries⟩

def NoKeep (jobs : List Job) : Prop := ∀ job ∈ jobs, job.isKeep = false

def Settled (s : Accounts) : AccountAct → Prop
  | .answer _ id => ∀ account ∈ id, s.signedIn = some account
  | .takeSignal _ era => era = s.signOuts
  | .restart => NoKeep s.queue
  | _ => True

/-! ## The invariant -/

/-- An account that is known is the one signed in. -/
def Knows (signedIn account : Option Account) : Prop := ∀ a, account = some a → signedIn = some a

/-- Who the next stamp is for: the first sign-out that waits, or who is signed in. -/
def stamper (signedIn : Option Account) : List Job → Option Account
  | [] => signedIn
  | .keep account _ :: _ => account
  | _ :: jobs => stamper signedIn jobs

/-- Stamped rightly, and of the account `who` when it has no stamp. -/
def EntryOk (who : Option Account) (e : Spooled) : Prop :=
  StampOk e ∧ (e.record.accountId = none → Knows who e.captured)

def AskOk (signedIn : Option Account) : Ask → Prop
  | .answer account => Knows signedIn account
  | .lookup _ => True

variable (signedIn : Option Account) (signOuts : Nat)

def JobOk (job : Job) (behind : List Job) : Prop :=
  match job with
  | .list signal => signal ≤ signOuts ∧ (signal = signOuts → NoKeep behind)
  | .spool e signal => signal ≤ signOuts ∧ (signal = signOuts → NoKeep behind ∧
      Knows signedIn e.captured ∧
      ∀ id, e.record.accountId = some id → ∃ account, signedIn = some account ∧ account.id = id)
  | .write e => EntryOk (stamper signedIn behind) e
  | .own _ | .keep _ _ => True

def QueueOk : List Job → Prop
  | [] => True
  | job :: behind => JobOk signedIn signOuts job behind ∧ QueueOk behind

def UploadOk : Upload → Prop
  | .captured e era => era ≤ signOuts ∧ (era = signOuts → Knows signedIn e.captured)
  | .sending e signal => signal ≤ signOuts ∧ (signal = signOuts → Knows signedIn e.captured)
  | .asking e signal ask => signal ≤ signOuts ∧
      (signal = signOuts → Knows signedIn e.captured ∧ AskOk signedIn ask)

def DrainStageOk : DrainStage → Prop
  | .listing => True
  | .listed entries => ∀ e ∈ entries, EntryOk signedIn e
  | .asking entries ask => AskOk signedIn ask ∧ ∀ e ∈ entries, EntryOk signedIn e
  | .going account entries => Knows signedIn account ∧ ∀ e ∈ entries, EntryOk signedIn e
  | .stamping account entry entries | .sending account entry entries =>
      Knows signedIn account ∧ (Knows signedIn entry.captured ∧ EntryOk signedIn entry) ∧
        ∀ e ∈ entries, EntryOk signedIn e

def DrainOk (d : Drain) : Prop :=
  d.signal ≤ signOuts ∧ (d.signal = signOuts → DrainStageOk signedIn d.stage)

structure AccountsOk (s : Accounts) : Prop where
  known : Knows s.signedIn s.accountKnown
  spool : ∀ e ∈ s.spool, EntryOk (stamper s.signedIn s.queue) e
  queue : QueueOk s.signedIn s.signOuts s.queue
  uploads : ∀ u ∈ s.uploads, UploadOk s.signedIn s.signOuts u
  drain : ∀ d, s.drain = some d → DrainOk s.signedIn s.signOuts d

variable {signedIn signOuts} {s t : Accounts} {who : Option Account} {e : Spooled} {job : Job}
  {jobs : List Job} {u : Upload} {d : Drain} {account : Account}

theorem AccountsOk.new : AccountsOk {} where
  known _ h := by cases h
  spool e h := (List.not_mem_nil h).elim
  queue := trivial
  uploads u h := (List.not_mem_nil h).elim
  drain d h := by cases h

/-! ## The queue -/

theorem stamper_noKeep (h : NoKeep jobs) : stamper signedIn jobs = signedIn := by
  induction jobs with
  | nil => rfl
  | cons job jobs ih =>
      have hjob := h job (List.mem_cons_self ..)
      have hjobs := ih fun job hmem => h job (List.mem_cons_of_mem _ hmem)
      cases job with
      | keep account known => cases hjob
      | _ => exact hjobs

theorem stamper_concat (h : job.isKeep = false) :
    stamper signedIn (jobs ++ [job]) = stamper signedIn jobs := by
  induction jobs with
  | nil =>
      cases job with
      | keep account known => cases h
      | _ => rfl
  | cons first jobs ih =>
      cases first with
      | keep account known => rfl
      | _ => exact ih

theorem stamper_signOut (known : Bool) :
    stamper none (jobs ++ [.keep signedIn known]) = stamper signedIn jobs := by
  induction jobs with
  | nil => rfl
  | cons first jobs ih =>
      cases first with
      | keep account known => rfl
      | _ => exact ih

theorem NoKeep.concat (h : NoKeep jobs) (hjob : job.isKeep = false) : NoKeep (jobs ++ [job]) := by
  intro other hother
  rcases List.mem_append.mp hother with hother | hother
  · exact h other hother
  · rwa [List.mem_singleton.mp hother]

theorem JobOk.concat {last : Job} (h : JobOk signedIn signOuts job jobs)
    (hlast : last.isKeep = false) : JobOk signedIn signOuts job (jobs ++ [last]) := by
  cases job with
  | list signal => exact ⟨h.1, fun heq => (h.2 heq).concat hlast⟩
  | spool e signal => exact ⟨h.1, fun heq => ⟨(h.2 heq).1.concat hlast, (h.2 heq).2⟩⟩
  | write e =>
      unfold JobOk at h ⊢
      rwa [stamper_concat hlast]
  | own id => trivial
  | keep account known => trivial

theorem QueueOk.concat (h : QueueOk signedIn signOuts jobs) (hjob : job.isKeep = false)
    (hok : JobOk signedIn signOuts job []) : QueueOk signedIn signOuts (jobs ++ [job]) := by
  induction jobs with
  | nil => exact ⟨hok, trivial⟩
  | cons first jobs ih => exact ⟨h.1.concat hjob, ih h.2⟩

/-! ## Nobody was signed in -/

theorem Knows.signIn {v : Option Account} (h : Knows none v) : Knows who v :=
  fun a ha => nomatch h a ha

theorem EntryOk.signIn (h : EntryOk (stamper none jobs) e) : EntryOk (stamper who jobs) e := by
  refine ⟨h.1, fun hnone => ?_⟩
  have hknows := h.2 hnone
  clear h
  induction jobs with
  | nil => exact hknows.signIn
  | cons job jobs ih =>
      cases job with
      | keep account known => exact hknows
      | _ => exact ih hknows

theorem QueueOk.signIn (h : QueueOk none signOuts jobs) : QueueOk who signOuts jobs := by
  induction jobs with
  | nil => trivial
  | cons job jobs ih =>
      refine ⟨?_, ih h.2⟩
      have hjob := h.1
      cases job with
      | list signal => exact hjob
      | spool e signal =>
          refine ⟨hjob.1, fun heq => ?_⟩
          obtain ⟨hkeep, hcaptured, hid⟩ := hjob.2 heq
          refine ⟨hkeep, hcaptured.signIn, fun id hstamp => ?_⟩
          obtain ⟨a, ha, -⟩ := hid id hstamp
          cases ha
      | write e => exact EntryOk.signIn hjob
      | own id => trivial
      | keep account known => trivial

theorem AskOk.signIn {ask : Ask} (h : AskOk none ask) : AskOk who ask := by
  cases ask with
  | answer account => exact Knows.signIn h
  | lookup number => trivial

theorem UploadOk.signIn (h : UploadOk none signOuts u) : UploadOk who signOuts u := by
  cases u with
  | captured e era => exact ⟨h.1, fun heq => (h.2 heq).signIn⟩
  | sending e signal => exact ⟨h.1, fun heq => (h.2 heq).signIn⟩
  | asking e signal ask => exact ⟨h.1, fun heq => ⟨(h.2 heq).1.signIn, (h.2 heq).2.signIn⟩⟩

theorem EntryOk.first (h : EntryOk none e) : EntryOk who e :=
  ⟨h.1, fun hnone => (h.2 hnone).signIn⟩

theorem DrainStageOk.signIn {stage : DrainStage} (h : DrainStageOk none stage) :
    DrainStageOk who stage := by
  cases stage with
  | listing => trivial
  | listed entries => exact fun e he => (h e he).first
  | asking entries ask => exact ⟨h.1.signIn, fun e he => (h.2 e he).first⟩
  | going account entries => exact ⟨h.1.signIn, fun e he => (h.2 e he).first⟩
  | stamping account entry entries =>
      exact ⟨h.1.signIn, ⟨h.2.1.1.signIn, h.2.1.2.first⟩, fun e he => (h.2.2 e he).first⟩
  | sending account entry entries =>
      exact ⟨h.1.signIn, ⟨h.2.1.1.signIn, h.2.1.2.first⟩, fun e he => (h.2.2 e he).first⟩

theorem AccountsOk.signIn (h : AccountsOk s) (hnone : s.signedIn = none) (lookups : List Lookup) :
    AccountsOk { s with signedIn := some account, lookups } := by
  obtain ⟨hknown, hspool, hqueue, huploads, hdrain⟩ := h
  rw [hnone] at hknown hspool hqueue huploads hdrain
  exact ⟨hknown.signIn, fun e he => (hspool e he).signIn, hqueue.signIn,
    fun u hu => (huploads u hu).signIn,
    fun d hd => ⟨(hdrain d hd).1, fun heq => ((hdrain d hd).2 heq).signIn⟩⟩

/-! ## A sign-out -/

theorem QueueOk.signOut (h : QueueOk signedIn signOuts jobs) (known : Bool) :
    QueueOk none (signOuts + 1) (jobs ++ [.keep signedIn known]) := by
  induction jobs with
  | nil => exact ⟨trivial, trivial⟩
  | cons job jobs ih =>
      refine ⟨?_, ih h.2⟩
      have hjob := h.1
      cases job with
      | list signal => exact ⟨Nat.le_succ_of_le hjob.1, fun heq => absurd hjob.1 (by omega)⟩
      | spool e signal => exact ⟨Nat.le_succ_of_le hjob.1, fun heq => absurd hjob.1 (by omega)⟩
      | write e =>
          show EntryOk (stamper none (jobs ++ [.keep signedIn known])) e
          rw [stamper_signOut]
          exact hjob
      | own id => trivial
      | keep account known => trivial

theorem UploadOk.signOut (h : UploadOk signedIn signOuts u) : UploadOk who (signOuts + 1) u := by
  cases u with
  | captured e era => exact ⟨Nat.le_succ_of_le h.1, fun heq => absurd h.1 (by omega)⟩
  | sending e signal => exact ⟨Nat.le_succ_of_le h.1, fun heq => absurd h.1 (by omega)⟩
  | asking e signal ask => exact ⟨Nat.le_succ_of_le h.1, fun heq => absurd h.1 (by omega)⟩

theorem AccountsOk.signOut (h : AccountsOk s) (known : Bool) :
    AccountsOk (s.keepSpoolFor known) where
  known _ ha := by cases ha
  spool e he := by
    show EntryOk (stamper none (s.queue ++ [.keep s.signedIn known])) e
    rw [stamper_signOut]
    exact h.spool e he
  queue := h.queue.signOut known
  uploads u hu := (h.uploads u hu).signOut
  drain d hd := ⟨Nat.le_succ_of_le (h.drain d hd).1,
    fun heq => absurd (h.drain d hd).1 (by rw [heq]; exact Nat.not_succ_le_self _)⟩

/-! ## Lookups -/

theorem AskOk.resolve {ask : Ask} {number : Nat} {v : Option Account} (h : AskOk signedIn ask)
    (hv : Knows signedIn v) : AskOk signedIn (Ask.resolve number v ask) := by
  unfold Ask.resolve
  split
  · exact hv
  · exact h

theorem AccountsOk.answered {id : Option Account} (h : AccountsOk s) (number : Nat)
    (hid : Knows s.signedIn id) : AccountsOk (s.answered number id) := by
  have hknown : Knows s.signedIn (id.or s.accountKnown) := by
    cases id with
    | none => exact h.known
    | some account => exact hid
  refine ⟨hknown, h.spool, h.queue, fun u hu => ?_, fun d hd => ?_⟩
  · obtain ⟨old, hold, rfl⟩ := List.mem_map.mp hu
    have hok := h.uploads old hold
    cases old with
    | asking e signal ask =>
        exact ⟨hok.1, fun heq => ⟨(hok.2 heq).1, (hok.2 heq).2.resolve hknown⟩⟩
    | _ => exact hok
  · obtain ⟨old, hold, rfl⟩ := Option.map_eq_some_iff.mp hd
    have hok := h.drain old hold
    obtain ⟨signal, stage⟩ := old
    cases stage with
    | asking entries ask =>
        exact ⟨hok.1, fun heq => ⟨(hok.2 heq).1.resolve hknown, (hok.2 heq).2⟩⟩
    | _ => exact hok

theorem currentAccount_ok (h : AccountsOk s) :
    AccountsOk s.currentAccount.1 ∧ AskOk s.signedIn s.currentAccount.2 ∧
      s.currentAccount.1.signedIn = s.signedIn ∧ s.currentAccount.1.signOuts = s.signOuts ∧
      s.currentAccount.1.uploads = s.uploads ∧ s.currentAccount.1.queue = s.queue := by
  have hknown := h.known
  unfold currentAccount
  split
  · next account _ hsome =>
      rw [hsome] at hknown
      exact ⟨h, hknown, rfl, rfl, rfl, rfl⟩
  · exact ⟨h, trivial, rfl, rfl, rfl, rfl⟩
  · exact ⟨⟨h.known, h.spool, h.queue, h.uploads, h.drain⟩, trivial, rfl, rfl, rfl, rfl⟩

/-! ## The lock -/

theorem AccountsOk.push (h : AccountsOk s) (hjob : job.isKeep = false)
    (hok : JobOk s.signedIn s.signOuts job []) :
    AccountsOk { s with queue := s.queue ++ [job] } where
  known := h.known
  spool e he := by
    show EntryOk (stamper s.signedIn (s.queue ++ [job])) e
    rw [stamper_concat hjob]
    exact h.spool e he
  queue := h.queue.concat hjob hok
  uploads := h.uploads
  drain := h.drain

theorem keepStamp_ok (known : Bool) (h : who = some account) :
    keepStamp who known = account.id ∨ keepStamp who known = signedOutUnknownAccount := by
  subst h
  cases known with
  | true => exact .inl rfl
  | false => exact .inr rfl

theorem keep_ok {out : Option Account} (h : EntryOk out e) (known : Bool) :
    EntryOk who (keep (keepStamp out known) e) := by
  unfold keep
  split
  · next hstamp =>
      refine ⟨h.1, fun hnone => ?_⟩
      rw [hnone] at hstamp
      cases hstamp
  · next hstamp =>
      rw [Option.not_isSome_iff_eq_none] at hstamp
      refine ⟨fun a id ha hid => ?_, fun hnone => nomatch hnone⟩
      cases hid
      exact keepStamp_ok known (h.2 hstamp a ha)

theorem spooled_ok {signal : Nat} (h : JobOk s.signedIn s.signOuts (.spool e signal) jobs)
    (hsignal : signal = s.signOuts) : EntryOk (stamper s.signedIn jobs) e := by
  obtain ⟨hkeep, hcaptured, hid⟩ := h.2 hsignal
  rw [stamper_noKeep hkeep]
  refine ⟨fun a id ha hstamp => ?_, fun _ => hcaptured⟩
  obtain ⟨b, hb, rfl⟩ := hid id hstamp
  rw [hcaptured a ha] at hb
  cases hb
  exact .inl rfl

theorem listed_ok {signal : Nat} (hdrain : ∀ d, s.drain = some d → DrainOk s.signedIn s.signOuts d)
    (hspool : signal = s.signOuts → ∀ e ∈ s.spool, EntryOk s.signedIn e)
    (hd : s.listed signal s.drain = some d) : DrainOk s.signedIn s.signOuts d := by
  cases hold : s.drain with
  | none =>
      rw [hold] at hd
      cases hd
  | some old =>
      have hok := hdrain old hold
      obtain ⟨of, stage⟩ := old
      rw [hold] at hd
      cases stage with
      | listing =>
          unfold listed at hd
          dsimp only at hd
          split at hd
          · next heq =>
              cases hd
              exact ⟨hok.1, fun hof => hspool (heq ▸ hof)⟩
          · cases hd
            exact hok
      | _ =>
          cases hd
          exact hok

theorem AccountsOk.run (h : AccountsOk s) (hrun : s.run = some t) : AccountsOk t := by
  obtain ⟨hknown, hspool, hqueue, huploads, hdrain⟩ := h
  unfold Accounts.run at hrun
  split at hrun
  · cases hrun
  · next signal queue hq =>
      cases hrun
      rw [hq] at hspool hqueue
      obtain ⟨⟨-, hlist⟩, hqueue⟩ := hqueue
      refine ⟨hknown, hspool, hqueue, huploads, fun d hd => ?_⟩
      refine listed_ok (s := s) hdrain (fun heq e he => ?_) hd
      have hok := hspool e he
      have hkeep := @stamper_noKeep s.signedIn queue (hlist heq)
      rwa [show stamper s.signedIn (.list signal :: queue) = s.signedIn from hkeep] at hok
  · next entry signal queue hq =>
      rw [hq] at hspool hqueue
      split at hrun
      · next heq =>
          cases hrun
          refine ⟨hknown, fun e he => ?_, ⟨trivial, hqueue.2⟩, huploads, hdrain⟩
          rcases List.mem_append.mp he with he | he
          · exact hspool e he
          · rw [List.mem_singleton.mp he]
            have hok := spooled_ok (s := s) hqueue.1 heq
            exact hok
      · cases hrun
        exact ⟨hknown, hspool, hqueue.2, huploads, hdrain⟩
  · next id queue hq =>
      cases hrun
      rw [hq] at hspool hqueue
      exact ⟨hknown, hspool, hqueue.2, huploads, hdrain⟩
  · next entry queue hq =>
      cases hrun
      rw [hq] at hspool hqueue
      refine ⟨hknown, fun e he => ?_, hqueue.2, huploads, hdrain⟩
      obtain ⟨old, hold, rfl⟩ := List.mem_map.mp he
      split
      · exact hqueue.1
      · exact hspool old hold
  · next account known queue hq =>
      cases hrun
      rw [hq] at hspool hqueue
      refine ⟨hknown, fun e he => ?_, hqueue.2, huploads, hdrain⟩
      obtain ⟨old, hold, rfl⟩ := List.mem_map.mp he
      exact keep_ok (hspool old hold) known

/-! ## Uploads and drains -/

theorem AccountsOk.setUpload (h : AccountsOk s) (old : Upload) {new : List Upload}
    (hnew : ∀ u ∈ new, UploadOk s.signedIn s.signOuts u) : AccountsOk (s.setUpload old new) := by
  refine ⟨h.known, h.spool, h.queue, fun u hu => ?_, h.drain⟩
  rcases List.mem_append.mp hu with hu | hu
  · exact hnew u hu
  · exact h.uploads u (List.mem_of_mem_erase hu)

theorem AccountsOk.atStage {signal : Nat} {stage : DrainStage} (h : AccountsOk s)
    (hsignal : signal ≤ s.signOuts) (hstage : signal = s.signOuts → DrainStageOk s.signedIn stage) :
    AccountsOk (s.atStage signal stage) := by
  refine ⟨h.known, h.spool, h.queue, h.uploads, fun d hd => ?_⟩
  cases hd
  exact ⟨hsignal, hstage⟩

/-- An entry stamped for the account that a drain knows is of the account signed in. -/
theorem captured_of_stamped {id : String} (hok : StampOk e) (hstamp : e.record.accountId = some id)
    (hid : some id = who.map (·.id)) (hwho : Knows signedIn who) : Knows signedIn e.captured := by
  intro a ha
  obtain ⟨b, hb, rfl⟩ := Option.map_eq_some_iff.mp hid.symm
  rcases hok a b.id ha hstamp with heq | heq
  · have hab : b = a := by
      obtain ⟨_, _⟩ := a
      obtain ⟨_, _⟩ := b
      cases heq
      rfl
    rw [← hab]
    exact hwho b hb
  · exact absurd heq b.notMarker

theorem AccountsOk.spoolEntryOwned {entries : List Spooled} (h : AccountsOk s)
    (hwho : Knows s.signedIn who) (he : EntryOk s.signedIn e)
    (hentries : ∀ e ∈ entries, EntryOk s.signedIn e) :
    AccountsOk (s.spoolEntryOwned s.signOuts who e entries) := by
  unfold Accounts.spoolEntryOwned
  split
  · next id hstamp =>
      split
      · next hid =>
          have hcaptured := captured_of_stamped he.1 hstamp hid hwho
          exact h.atStage (Nat.le_refl _) fun _ => ⟨hwho, ⟨hcaptured, he⟩, hentries⟩
      · exact h.atStage (Nat.le_refl _) fun _ => ⟨hwho, hentries⟩
  · next hstamp =>
      split
      · exact h.atStage (Nat.le_refl _) fun _ => ⟨hwho, ⟨he.2 hstamp, he⟩, hentries⟩
      · exact h.atStage (Nat.le_refl _) fun _ => ⟨hwho, hentries⟩
  · next a hstamp =>
      have hcaptured := he.2 hstamp
      have hstamped : ∀ w, EntryOk w (e.stamped a.id) := by
        refine fun w => ⟨fun b id hb hid => ?_, fun hnone => nomatch hnone⟩
        cases hid
        have hsame := hwho a rfl
        rw [hcaptured b hb] at hsame
        cases hsame
        exact .inl rfl
      have hstage : AccountsOk
          (s.atStage s.signOuts (.stamping (some a) (e.stamped a.id) entries)) :=
        h.atStage (Nat.le_refl _) fun _ => ⟨hwho, ⟨hcaptured, hstamped _⟩, hentries⟩
      exact hstage.push rfl (hstamped _)

/-! ## Runs -/

theorem AccountsOk.stepDrain {act : AccountAct} (h : AccountsOk s) (hd : s.drain = some d)
    (hstep : s.stepDrain d act = some t) : AccountsOk t := by
  have hok := h.drain d hd
  obtain ⟨signal, stage⟩ := d
  obtain ⟨hsignal, hstage⟩ := hok
  dsimp only at hsignal hstage
  cases act with
  | askDrain =>
      cases stage with
      | listed entries =>
          cases hstep
          obtain ⟨hinv, hask, hin, hcount, -⟩ := currentAccount_ok h
          refine hinv.atStage (hcount ▸ hsignal) fun heq => ?_
          rw [hin]
          exact ⟨hask, hstage (heq.trans hcount)⟩
      | _ => cases hstep
  | resumeDrain =>
      cases stage with
      | asking entries ask =>
          cases ask with
          | answer account =>
              cases hstep
              exact h.atStage hsignal fun heq => hstage heq
          | lookup number => cases hstep
      | _ => cases hstep
  | skip =>
      cases stage with
      | going account entries =>
          cases entries with
          | nil => cases hstep
          | cons entry entries =>
              cases hstep
              exact h.atStage hsignal fun heq =>
                ⟨(hstage heq).1, fun e he => (hstage heq).2 e (List.mem_cons_of_mem _ he)⟩
      | _ => cases hstep
  | own =>
      cases stage with
      | going account entries =>
          cases entries with
          | nil => cases hstep
          | cons entry entries =>
              unfold Accounts.stepDrain at hstep
              dsimp only at hstep
              split at hstep
              · next heq =>
                  cases hstep
                  obtain ⟨hknows, hentries⟩ := hstage heq
                  subst heq
                  exact h.spoolEntryOwned hknows (hentries entry (List.mem_cons_self ..))
                    fun e he => hentries e (List.mem_cons_of_mem _ he)
              · cases hstep
      | _ => cases hstep
  | stampWritten =>
      cases stage with
      | stamping account entry entries =>
          unfold Accounts.stepDrain at hstep
          dsimp only at hstep
          split at hstep
          · cases hstep
          · cases hstep
            exact h.atStage hsignal fun heq => hstage heq
      | _ => cases hstep
  | send =>
      cases stage with
      | sending account entry entries =>
          unfold Accounts.stepDrain at hstep
          dsimp only at hstep
          split at hstep
          · cases hstep
            exact h
          · cases hstep
      | _ => cases hstep
  | sent =>
      cases stage with
      | sending account entry entries =>
          cases hstep
          have hinv : AccountsOk (s.atStage signal (.going account entries)) :=
            h.atStage hsignal fun heq => ⟨(hstage heq).1, (hstage heq).2.2⟩
          exact ⟨hinv.known, hinv.spool, hinv.queue, hinv.uploads, hinv.drain⟩
      | _ => cases hstep
  | failed attempts lastAttemptAt notBefore =>
      cases stage with
      | sending account entry entries =>
          unfold Accounts.stepDrain at hstep
          dsimp only at hstep
          split at hstep
          · next heq =>
              cases hstep
              obtain ⟨hknows, ⟨hcaptured, hentry⟩, hentries⟩ := hstage heq
              have hinv : AccountsOk (s.atStage signal (.going account entries)) :=
                h.atStage hsignal fun _ => ⟨hknows, hentries⟩
              exact hinv.push rfl ⟨hentry.1, hentry.2⟩
          · cases hstep
      | _ => cases hstep
  | endDrain =>
      unfold Accounts.stepDrain at hstep
      dsimp only at hstep
      split at hstep
      · cases hstep
      · cases hstep
        exact ⟨h.known, h.spool, h.queue, h.uploads, fun d hd => nomatch hd⟩
  | _ => cases hstep

theorem AccountsOk.step {act : AccountAct} (h : AccountsOk s) (hsettled : Settled s act)
    (hstep : s.step act = some t) : AccountsOk t := by
  have hdrain : ∀ {act}, (s.drain.bind fun drain => s.stepDrain drain act) = some t →
      AccountsOk t := by
    intro act hbind
    obtain ⟨d, hd, hstep⟩ := Option.bind_eq_some_iff.mp hbind
    exact h.stepDrain hd hstep
  cases act with
  | signIn account =>
      unfold Accounts.step at hstep
      dsimp only at hstep
      split at hstep
      · next hnone =>
          cases hstep
          exact h.signIn hnone _
      · cases hstep
  | signOut known =>
      cases hstep
      exact h.signOut known
  | answer number id =>
      unfold Accounts.step at hstep
      dsimp only at hstep
      split at hstep
      · cases hstep
        exact h.answered number hsettled
      · cases hstep
  | restart =>
      cases hstep
      refine ⟨(fun _ ha => nomatch ha), fun e he => ?_, trivial, fun u hu => ?_,
        (fun d hd => nomatch hd)⟩
      · have hok := h.spool e he
        rwa [stamper_noKeep hsettled] at hok
      · exact (List.not_mem_nil hu).elim
  | run => exact h.run hstep
  | remove id =>
      cases hstep
      exact ⟨h.known, fun e he => h.spool e (List.mem_filter.mp he).1, h.queue, h.uploads, h.drain⟩
  | capture record =>
      unfold Accounts.step at hstep
      dsimp only at hstep
      split at hstep
      · cases hstep
        refine ⟨h.known, h.spool, h.queue, fun u hu => ?_, h.drain⟩
        rcases List.mem_cons.mp hu with rfl | hu
        · exact ⟨Nat.le_refl _, fun _ a ha => ha⟩
        · exact h.uploads u hu
      · cases hstep
  | takeSignal entry era =>
      unfold Accounts.step at hstep
      dsimp only at hstep
      split at hstep
      · next hmem =>
          cases hstep
          have hok := h.uploads _ hmem
          refine h.setUpload _ fun u hu => ?_
          rw [List.mem_singleton.mp hu]
          exact ⟨Nat.le_refl _, fun _ => hok.2 hsettled⟩
      · cases hstep
  | finish upload =>
      unfold Accounts.step at hstep
      dsimp only at hstep
      split at hstep
      · cases hstep
        exact h.setUpload _ fun u hu => (List.not_mem_nil hu).elim
      · cases hstep
  | spoolArtifact entry signal =>
      unfold Accounts.step at hstep
      dsimp only at hstep
      split at hstep
      · next hmem =>
          cases hstep
          have hok := h.uploads _ hmem
          obtain ⟨hinv, hask, hin, hcount, -⟩ := currentAccount_ok h
          refine hinv.setUpload _ fun u hu => ?_
          rw [List.mem_singleton.mp hu, hin, hcount]
          exact ⟨hok.1, fun heq => ⟨hok.2 heq, hask⟩⟩
      · cases hstep
  | spoolEnvelopeFile entry signal account =>
      unfold Accounts.step at hstep
      dsimp only at hstep
      split at hstep
      · next hmem =>
          cases hstep
          have hok := h.uploads _ hmem
          have hinv : AccountsOk (s.setUpload (.asking entry signal (.answer account)) []) :=
            h.setUpload _ fun u hu => (List.not_mem_nil hu).elim
          refine hinv.push rfl ⟨hok.1, fun heq => ⟨fun _ hjob => (List.not_mem_nil hjob).elim,
            (hok.2 heq).1, fun id hid => ?_⟩⟩
          obtain ⟨a, ha, rfl⟩ := Option.map_eq_some_iff.mp hid
          exact ⟨a, (hok.2 heq).2 a ha, rfl⟩
      · cases hstep
  | startDrain =>
      unfold Accounts.step at hstep
      dsimp only at hstep
      split at hstep
      · cases hstep
        have hinv : AccountsOk (s.atStage s.signOuts .listing) :=
          h.atStage (Nat.le_refl _) fun _ => trivial
        exact hinv.push rfl ⟨Nat.le_refl _, fun _ _ hjob => (List.not_mem_nil hjob).elim⟩
      · cases hstep
  | _ => exact hdrain hstep

theorem AccountsOk.of_reach (h : Reach Accounts.step Settled {} s) : AccountsOk s :=
  h.invariant (fun _ _ _ hs hguard hstep => hs.step hguard hstep) AccountsOk.new

theorem stamper_spool (h : ∀ e ∈ s.spool, EntryOk who e) : ∀ e ∈ s.spool, StampOk e :=
  fun e he => (h e he).1

instance : ∀ s act, Decidable (Settled s act)
  | s, .answer _ id => inferInstanceAs (Decidable (∀ account ∈ id, s.signedIn = some account))
  | s, .takeSignal _ era => inferInstanceAs (Decidable (era = s.signOuts))
  | s, .restart => inferInstanceAs (Decidable (∀ job ∈ s.queue, job.isKeep = false))
  | _, .signIn _ | _, .signOut _ | _, .run | _, .remove _ | _, .capture _ | _, .finish _
  | _, .spoolArtifact _ _ | _, .spoolEnvelopeFile _ _ _ | _, .startDrain | _, .askDrain
  | _, .resumeDrain | _, .skip | _, .own | _, .stampWritten | _, .send | _, .sent
  | _, .failed _ _ _ | _, .endDrain => inferInstanceAs (Decidable True)

def alice : Account := ⟨"alice", by decide⟩

def bob : Account := ⟨"bob", by decide⟩

def aliceUpload : Spooled where
  record :=
    { id := 1, sessionId := "s", snapshotType := "trace", sequence := 1, bytes := 9,
      createdAt := "t", attempts := 1 }
  captured := some alice

/-- An upload of alice that could not be sent and is stamped, then a new process. -/
def spooledByAlice : List AccountAct :=
  [.signIn alice, .capture aliceUpload.record, .takeSignal aliceUpload 0,
    .spoolArtifact aliceUpload 0, .answer 0 (some alice),
    .spoolEnvelopeFile aliceUpload 0 (some alice), .run, .run, .restart]

def sendsAlices (who : Account) (s : Accounts) : Bool :=
  s.drain = some ⟨s.signOuts, .sending (some alice) (aliceUpload.stamped "alice") []⟩ &&
    s.signedIn = some who

end OmniRush.Uploader
