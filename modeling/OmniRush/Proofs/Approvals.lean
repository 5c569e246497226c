import OmniRush.Approvals.Replayer
import OmniRush.Lib.Machine

/-!
# Answers stay within what persons approved

A reply the replayer gave is remembered like a person's, with the patterns the engine
suggested for the ask, and these may be wider than what the answer rested on. And an ask is
checked by its texts only, so that an answer also approves whatever else its patterns held.

Where neither happens, the remembered grants of a thread cover nothing that a person's
grant on that thread does not cover, which is the invariant here, and every answer rests on
one such grant.
-/

namespace OmniRush.Approvals

variable {fold : Nat → Nat}

/-- A person gave the grant on that thread. -/
def Replayer.Gave (s : Replayer) (workspaceId sessionId : String)
    (grant : ThreadApprovalGrant) : Prop :=
  ⟨workspaceId, sessionId, grant⟩ ∈ s.given

/-- Whatever an ask needs, one grant among those is enough for it. -/
def Covered (fold : Nat → Nat) (grants : ThreadApprovalGrant → Prop) (permission : String)
    (patterns : List String) : Prop :=
  ∃ grant, grants grant ∧ grantCovers fold grant permission patterns = true

/-- One grant of a person on the thread matches every pattern of the ask. -/
def Answer.Approved (fold : Nat → Nat) (s : Replayer) (answer : Answer) : Prop :=
  ∃ grant, s.Gave answer.workspaceId answer.sessionId grant ∧
    matchesPermissionPattern fold answer.permission grant.permission = true ∧
    ∀ pattern ∈ answer.requested, ∃ text, pattern = .str text ∧
      ∃ granted ∈ grant.patterns, matchesPermissionPattern fold text granted = true

/-- The patterns of the ask are texts, and one grant of the thread covers all of them. -/
def Replayer.AsksTexts (fold : Nat → Nat) (s : Replayer) (workspaceId : String)
    (properties : List (String × Json)) : Prop :=
  ∃ texts : List String, itemsOf (fieldOf properties "patterns") = texts.map Json.str ∧
    Covered fold (· ∈ s.store workspaceId (textField properties "sessionID"))
      (textField properties "permission") texts

/-- What the steps have to keep to: an ask whose non-empty texts a remembered grant covers asks
for nothing else that none covers, and where the replayer's own reply is remembered, the
grant it leaves covers nothing that the remembered grants of the thread do not. -/
def Replayer.Keeps (fold : Nat → Nat) (s : Replayer) : ReplayEvent → Prop
  | .reconnect => True
  | .frame payload workspaceId byReplayer =>
      ∀ fields directory event properties, payload = .obj fields →
        fieldOf fields "directory" = some (.str directory) →
        fieldOf fields "payload" = some (.obj event) →
        fieldOf event "properties" = some (.obj properties) →
        ∀ workspace, workspaceId = some workspace →
        (textField event "type" = "permission.asked" →
          Covered fold (· ∈ s.store workspace (textField properties "sessionID"))
            (textField properties "permission") (stringList (fieldOf properties "patterns")) →
          s.AsksTexts fold workspace properties) ∧
        (textField event "type" = "permission.replied" → byReplayer = true →
          textField properties "reply" = "always" →
          ∀ ask, s.pendingAsk (textField properties "requestID") = some ask →
            ∀ permission patterns, grantCovers fold (grantOf ask) permission patterns = true →
              Covered fold (· ∈ s.store workspace ask.sessionId) permission patterns)

/-! ## One step -/

theorem grantCovers_spec {grant : ThreadApprovalGrant} {permission : String}
    {patterns : List String} (h : grantCovers fold grant permission patterns = true) :
    matchesPermissionPattern fold permission grant.permission = true ∧ patterns ≠ [] ∧
    ∀ pattern ∈ patterns, ∃ granted ∈ grant.patterns,
      matchesPermissionPattern fold pattern granted = true := by
  simp only [grantCovers, Bool.and_eq_true, decide_eq_true_eq, List.all_eq_true,
    List.any_eq_true] at h
  exact ⟨h.1.1, h.1.2, h.2⟩

/-- The remembered grants of a thread cover nothing a person's grant there does not cover,
and every answer rests on such a grant. -/
structure Replayer.Within (fold : Nat → Nat) (s : Replayer) : Prop where
  store : ∀ workspaceId sessionId permission patterns,
    Covered fold (· ∈ s.store workspaceId sessionId) permission patterns →
    Covered fold (s.Gave workspaceId sessionId) permission patterns
  answers : ∀ answer ∈ s.answers, answer.Approved fold s

theorem within_start : Replayer.start.Within fold where
  store := by
    rintro _ _ _ _ ⟨grant, hmem, -⟩
    cases hmem
  answers := by
    intro answer hmem
    cases hmem

theorem Replayer.Within.more {s t : Replayer} (h : s.Within fold) (hstore : t.store = s.store)
    (hanswers : t.answers = s.answers) (hgiven : ∀ g ∈ s.given, g ∈ t.given) :
    t.Within fold where
  store w x permission patterns := by
    rintro ⟨grant, hmem, hcovers⟩
    rw [hstore] at hmem
    obtain ⟨grant', hgave, hcovers'⟩ := h.store w x permission patterns ⟨grant, hmem, hcovers⟩
    exact ⟨grant', hgiven _ hgave, hcovers'⟩
  answers answer hmem := by
    rw [hanswers] at hmem
    obtain ⟨grant, hgave, happroved⟩ := h.answers answer hmem
    exact ⟨grant, hgiven _ hgave, happroved⟩

theorem mem_rememberThreadApproval {s : Replayer} {w x w' x' : String}
    {grant grant' : ThreadApprovalGrant}
    (h : grant' ∈ (s.rememberThreadApproval w x grant).store w' x') :
    grant' ∈ s.store w' x' ∨ w' = w ∧ x' = x ∧ grant' = grant := by
  unfold Replayer.rememberThreadApproval at h
  split at h
  · exact .inl h
  · split at h
    · exact .inl h
    · dsimp only at h
      split at h
      · next heq =>
          rcases List.mem_append.mp h with hmem | hmem
          · exact .inl hmem
          · exact .inr ⟨heq.1, heq.2, List.mem_singleton.mp hmem⟩
      · exact .inl h

theorem rememberThreadApproval_logs (s : Replayer) (w x : String) (grant : ThreadApprovalGrant) :
    (s.rememberThreadApproval w x grant).answers = s.answers ∧
    (s.rememberThreadApproval w x grant).given = s.given := by
  unfold Replayer.rememberThreadApproval
  split
  · exact ⟨rfl, rfl⟩
  · split <;> exact ⟨rfl, rfl⟩

theorem rememberThreadApproval_given (s : Replayer) (w x : String) (grant : ThreadApprovalGrant)
    (given : List Given) : Replayer.rememberThreadApproval { s with given := given } w x grant
      = { s.rememberThreadApproval w x grant with given := given } := by
  unfold Replayer.rememberThreadApproval
  dsimp only
  split
  · rfl
  · split <;> rfl

/-- A grant that is remembered leaves the thread within, if what it covers is covered. -/
theorem Replayer.Within.remember {s : Replayer} (h : s.Within fold) {w x : String}
    {grant : ThreadApprovalGrant}
    (hgrant : ∀ permission patterns, grantCovers fold grant permission patterns = true →
      Covered fold (s.Gave w x) permission patterns) :
    (s.rememberThreadApproval w x grant).Within fold where
  store w' x' permission patterns := by
    obtain ⟨-, hgiven⟩ := rememberThreadApproval_logs s w x grant
    rintro ⟨grant', hmem, hcovers⟩
    unfold Replayer.Gave
    rw [hgiven]
    rcases mem_rememberThreadApproval hmem with hold | ⟨rfl, rfl, rfl⟩
    · exact h.store w' x' permission patterns ⟨grant', hold, hcovers⟩
    · exact hgrant permission patterns hcovers
  answers answer hmem := by
    obtain ⟨hanswers, hgiven⟩ := rememberThreadApproval_logs s w x grant
    rw [hanswers] at hmem
    unfold Answer.Approved Replayer.Gave
    rw [hgiven]
    exact h.answers answer hmem

theorem Replayer.Within.asked {s : Replayer} (h : s.Within fold) {directory : String}
    {properties : List (String × Json)} {workspaceId : Option String}
    (hkeeps : ∀ workspace, workspaceId = some workspace →
      Covered fold (· ∈ s.store workspace (textField properties "sessionID"))
        (textField properties "permission") (stringList (fieldOf properties "patterns")) →
      s.AsksTexts fold workspace properties) :
    (s.onAsked fold directory properties workspaceId).Within fold := by
  have hpending : ∀ requestId ask, (s.setPending requestId ask).Within fold :=
    fun _ _ => h.more rfl rfl fun _ hg => hg
  unfold Replayer.onAsked
  dsimp only
  split
  · exact h
  · split
    · exact hpending _ _
    · next workspace =>
        split
        · next hany =>
            obtain ⟨grant, hmem, hcovers⟩ := List.any_eq_true.mp hany
            obtain ⟨texts, htexts, hcovered⟩ := hkeeps workspace rfl ⟨grant, hmem, hcovers⟩
            obtain ⟨given, hgave, hgiven⟩ := h.store _ _ _ _ hcovered
            obtain ⟨hpermission, -, hpatterns⟩ := grantCovers_spec hgiven
            refine ⟨h.store, ?_⟩
            intro answer hanswer
            rcases List.mem_append.mp hanswer with hold | hnew
            · exact h.answers answer hold
            · rw [List.mem_singleton.mp hnew]
              refine ⟨given, hgave, hpermission, ?_⟩
              intro pattern hpattern
              rw [htexts] at hpattern
              obtain ⟨text, htext, rfl⟩ := List.mem_map.mp hpattern
              exact ⟨text, rfl, hpatterns text htext⟩
        · exact hpending _ _

theorem Replayer.Within.replied {s : Replayer} (h : s.Within fold)
    {properties : List (String × Json)} {workspaceId : Option String} {byReplayer : Bool}
    (hkeeps : ∀ workspace, workspaceId = some workspace → byReplayer = true →
      textField properties "reply" = "always" →
      ∀ ask, s.pendingAsk (textField properties "requestID") = some ask →
        ∀ permission patterns, grantCovers fold (grantOf ask) permission patterns = true →
          Covered fold (· ∈ s.store workspace ask.sessionId) permission patterns) :
    (s.onReplied properties workspaceId byReplayer).Within fold := by
  unfold Replayer.onReplied
  dsimp only
  split
  · exact h
  · next ask hask =>
      have hdeleted : (s.deletePending (textField properties "requestID")).Within fold :=
        h.more rfl rfl fun _ hg => hg
      split
      · exact hdeleted
      · next hreply =>
          split
          · exact hdeleted
          · next workspace =>
              split
              · next hown =>
                  refine hdeleted.remember fun permission patterns hcovers => ?_
                  exact h.store _ _ _ _ (hkeeps workspace rfl hown (Decidable.not_not.mp hreply)
                    ask hask permission patterns hcovers)
              · next hown =>
                  -- The person's grant may as well be in the log before it is remembered.
                  rw [(rememberThreadApproval_logs ..).2, ← rememberThreadApproval_given]
                  have hgiven : Replayer.Within fold
                      { s.deletePending (textField properties "requestID") with
                        given := s.given ++ [⟨workspace, ask.sessionId, grantOf ask⟩] } :=
                    hdeleted.more rfl rfl fun _ hg => List.mem_append_left _ hg
                  refine hgiven.remember fun permission patterns hcovers => ?_
                  exact ⟨_, List.mem_append_right _ (List.mem_singleton.mpr rfl), hcovers⟩

theorem Replayer.Within.step {s : Replayer} (h : s.Within fold) {event : ReplayEvent}
    (hkeeps : s.Keeps fold event) : (s.step fold event).Within fold := by
  cases event with
  | reconnect => exact h.more rfl rfl fun _ hg => hg
  | frame payload workspaceId byReplayer =>
      unfold Replayer.step Replayer.handleFrame
      dsimp only
      split
      · next fields =>
          split
          · next directory event hdirectory hpayload =>
              have hread : ∀ properties, fieldOf event "properties" = some (.obj properties) → _ :=
                fun properties hproperties workspace hworkspace =>
                  hkeeps fields directory event properties rfl hdirectory hpayload hproperties
                    workspace hworkspace
              split
              · next hasked =>
                  refine h.asked fun workspace hworkspace => ?_
                  split
                  · next properties hproperties =>
                      exact (hread properties hproperties workspace hworkspace).1 hasked
                  · rintro ⟨grant, -, hcovers⟩
                    exact absurd rfl (grantCovers_spec hcovers).2.1
              · split
                · next hreplied =>
                    refine h.replied fun workspace hworkspace => ?_
                    split
                    · next properties hproperties =>
                        exact (hread properties hproperties workspace hworkspace).2 hreplied
                    · intro _ hreply
                      exact absurd hreply (by decide)
                · exact h
          · exact h
      · exact h

/-! ## Runs -/

/-- The replayer as a machine: every event is possible. -/
def Replayer.next (fold : Nat → Nat) (s : Replayer) (event : ReplayEvent) : Option Replayer :=
  some (s.step fold event)

/-- In every run that keeps to the condition, each answer rests on one grant that a person gave
on that thread, and what is remembered covers nothing more than such grants do. -/
theorem answers_within_grants {s : Replayer}
    (h : Reach (Replayer.next fold) (Replayer.Keeps fold) .start s) :
    (∀ answer ∈ s.answers, answer.Approved fold s) ∧
    ∀ workspaceId sessionId permission patterns,
      Covered fold (· ∈ s.store workspaceId sessionId) permission patterns →
      Covered fold (s.Gave workspaceId sessionId) permission patterns := by
  have hkeep : ∀ (s : Replayer) event t, s.Within fold → s.Keeps fold event → Replayer.next fold s event = some t →
      t.Within fold := by
    intro s event t hs hkeeps hnext
    rw [← Option.some.inj hnext]
    exact hs.step hkeeps
  have hwithin := h.invariant hkeep within_start
  exact ⟨hwithin.answers, hwithin.store⟩

/-! ### On one thread -/

theorem keeps_frame {s : Replayer} {fields event properties : List (String × Json)}
    {workspace : String} {byReplayer : Bool}
    (hevent : fieldOf fields "payload" = some (.obj event))
    (hproperties : fieldOf event "properties" = some (.obj properties))
    (hasked : textField event "type" = "permission.asked" →
      s.AsksTexts fold workspace properties ∨
      s.store workspace (textField properties "sessionID") = [])
    (hreplied : textField event "type" = "permission.replied" → byReplayer = true →
      ∀ ask, s.pendingAsk (textField properties "requestID") = some ask →
        Replayer.grantOf ask ∈ s.store workspace ask.sessionId) :
    s.Keeps fold (.frame (.obj fields) (some workspace) byReplayer) := by
  intro fields' directory event' properties' hfields _ hevent' hproperties' workspace' hworkspace
  cases hfields
  cases hworkspace
  cases hevent.symm.trans hevent'
  cases hproperties.symm.trans hproperties'
  refine ⟨fun htype hcovered => ?_, fun htype hby _ ask hask permission patterns hcovers => ?_⟩
  · rcases hasked htype with htexts | hnone
    · exact htexts
    · obtain ⟨grant, hmem, -⟩ := hcovered
      rw [hnone] at hmem
      cases hmem
  · exact ⟨Replayer.grantOf ask, hreplied htype hby ask hask, hcovers⟩

def exampleFrame (type : String) (properties : List (String × Json)) : Json :=
  .obj [("directory", .str "/w"),
    ("payload", .obj [("type", .str type), ("properties", .obj properties)])]

def exampleAsk (id pattern always : String) : ReplayEvent :=
  .frame (exampleFrame "permission.asked" [("id", .str id), ("sessionID", .str "s"),
    ("permission", .str "bash"), ("patterns", .arr [.str pattern]),
    ("always", .arr [.str always])]) (some "w") false

def exampleReply (id : String) (byReplayer : Bool) : ReplayEvent :=
  .frame (exampleFrame "permission.replied" [("requestID", .str id), ("reply", .str "always")])
    (some "w") byReplayer

/-- A person's grant, an ask it answers, and the reply to that ask. -/
theorem answers_within_grants_repeated : ∃ s : Replayer, s.answers.length = 1 ∧
    s.store "w" "s" = [⟨"bash", ["git status"]⟩] ∧
    (∀ answer ∈ s.answers, answer.Approved id s) ∧
    ∀ workspaceId sessionId permission patterns,
      Covered id (· ∈ s.store workspaceId sessionId) permission patterns →
      Covered id (s.Gave workspaceId sessionId) permission patterns := by
  let asked := Replayer.start.step id (exampleAsk "1" "git status" "git status")
  let given := asked.step id (exampleReply "1" false)
  let answered := given.step id (exampleAsk "2" "git status" "git status")
  have hasked : Reach (Replayer.next id) (Replayer.Keeps id) .start asked :=
    .snoc .refl (keeps_frame rfl rfl (fun _ => .inr rfl) fun h => absurd h (by decide)) rfl
  have hgiven : Reach (Replayer.next id) (Replayer.Keeps id) .start given :=
    .snoc hasked (keeps_frame rfl rfl (fun h => absurd h (by decide)) fun _ h => by cases h) rfl
  have hanswered : Reach (Replayer.next id) (Replayer.Keeps id) .start answered := by
    refine .snoc hgiven (keeps_frame rfl rfl (fun _ => .inl ?_) fun h => absurd h (by decide)) rfl
    refine ⟨["git status"], rfl, ⟨"bash", ["git status"]⟩, ?_, ?_⟩ <;> decide +kernel
  have hreplied : Reach (Replayer.next id) (Replayer.Keeps id) .start
      (answered.step id (exampleReply "2" true)) := by
    refine .snoc hanswered (keeps_frame rfl rfl (fun h => absurd h (by decide)) ?_) rfl
    intro _ _ ask hask
    have hsome : (answered.pendingAsk "2").all (fun ask =>
        Replayer.grantOf ask ∈ answered.store "w" ask.sessionId) = true := by decide +kernel
    rw [show answered.pendingAsk "2" = some ask from hask] at hsome
    exact of_decide_eq_true hsome
  exact ⟨_, by decide +kernel, by decide +kernel, answers_within_grants hreplied⟩

/-- The engine had asked for a push. -/
def Answer.pushes (answer : Answer) : Bool :=
  match answer.requested with
  | [.str text] => text = "git push"
  | _ => false

/-- The replayer's own reply leaves the wider patterns the engine suggested. -/
theorem own_reply_widens : ¬ ∀ s : Replayer,
    Reach (Replayer.next id) (fun _ _ => True) .start s →
    ∀ answer ∈ s.answers, answer.Approved id s := by
  intro h
  have hrun : (runActions (Replayer.next id) [exampleAsk "1" "git status" "git status",
        exampleReply "1" false, exampleAsk "2" "git status" "git *", exampleReply "2" true,
        exampleAsk "3" "git push" "git *"] .start).any (fun s =>
      s.given = [⟨"w", "s", ⟨"bash", ["git status"]⟩⟩] && s.answers.any Answer.pushes) = true := by
    decide +kernel
  obtain ⟨s, hs, hstate⟩ := exists_of_any hrun
  rw [Bool.and_eq_true, decide_eq_true_eq, List.any_eq_true] at hstate
  obtain ⟨hgiven, answer, hanswer, hrequested⟩ := hstate
  obtain ⟨grant, hgave, -, hpatterns⟩ :=
    h s (reach_of_run (fun _ _ _ => trivial) hs) answer hanswer
  unfold Answer.pushes at hrequested
  split at hrequested
  · next text hone =>
      obtain ⟨text', heq, granted, hmem, hmatches⟩ := hpatterns (.str text) (by rw [hone]; simp)
      cases heq
      rw [Replayer.Gave, hgiven, List.mem_singleton, Given.mk.injEq] at hgave
      obtain ⟨-, -, rfl⟩ := hgave
      rw [List.mem_singleton.mp hmem, of_decide_eq_true hrequested] at hmatches
      exact absurd hmatches (by decide +kernel)
  · cases hrequested

end OmniRush.Approvals
