import OmniRush.Approvals.Stored

/-!
# What calls on the approvals of a workspace do to each other

A call that writes the row over the one it read changes the grants of its own session only. A
call that writes over another row puts back all sessions as they were when it read: a grant that
was remembered since is lost, and what was forgotten since is there again.
-/

namespace OmniRush.Approvals

/-! ## What a call writes -/

/-- A grant that is read back as it was stored. -/
def Storable (grant : ThreadApprovalGrant) : Prop := grant.patterns ≠ [] ∧ "" ∉ grant.patterns

instance (grant : ThreadApprovalGrant) : Decidable (Storable grant) :=
  inferInstanceAs (Decidable (_ ∧ _))

variable {grant : ThreadApprovalGrant} {stored : Option Sessions} {sessions : Sessions}
  {sessionId id : String}

theorem Storable.parse (h : Storable grant) : parseGrant grant = some grant := by
  have hfilter : grant.patterns.filter (· ≠ "") = grant.patterns := by
    rw [List.filter_eq_self]
    intro pattern hmem
    simpa using ne_of_mem_of_not_mem hmem h.2
  simp only [parseGrant, hfilter, if_neg h.1]

theorem storable_of_parse {parsed : ThreadApprovalGrant} (h : parseGrant grant = some parsed) :
    Storable parsed := by
  simp only [parseGrant] at h
  split at h
  · cases h
  · next hne =>
      cases h
      refine ⟨hne, fun hmem => ?_⟩
      simpa using List.of_mem_filter hmem

theorem parseGrants_of_storable {grants : List ThreadApprovalGrant}
    (h : ∀ grant ∈ grants, Storable grant) : parseGrants grants = grants := by
  induction grants with
  | nil => rfl
  | cons grant grants ih =>
      have hrest := ih fun other hmem => h other (List.mem_cons_of_mem _ hmem)
      simp only [parseGrants] at hrest ⊢
      rw [List.filterMap_cons_some (h grant List.mem_cons_self).parse, hrest]

theorem storable_of_mem_parseGrants {grants : List ThreadApprovalGrant}
    (h : grant ∈ parseGrants grants) : Storable grant := by
  obtain ⟨raw, -, hparse⟩ := List.mem_filterMap.mp h
  exact storable_of_parse hparse

theorem get_parseSessions (sessions : Sessions) (id : String) :
    (parseSessions sessions).get id = (sessions.get id).map parseGrants := by
  obtain ⟨entries, hdistinct⟩ := sessions
  simp only [Record.get, parseSessions, List.find?_map, Option.map_map]
  rfl

/-- What a read of the row finds. -/
def parsedRow (stored : Option Sessions) : Sessions := (stored.map parseSessions).getD .empty

theorem listThreadApprovals_eq (stored : Option Sessions) (id : String) :
    listThreadApprovals stored id = ((parsedRow stored).get id).getD [] := by
  cases stored <;> rfl

theorem storable_of_mem_list (h : grant ∈ listThreadApprovals stored id) : Storable grant := by
  cases stored with
  | none => cases h
  | some sessions =>
      rw [listThreadApprovals_eq, parsedRow, Option.map_some, Option.getD_some,
        get_parseSessions] at h
      cases hget : sessions.get id with
      | none =>
          rw [hget] at h
          cases h
      | some grants =>
          rw [hget] at h
          exact storable_of_mem_parseGrants h

theorem list_some (h : ∀ grant ∈ (sessions.get id).getD [], Storable grant) :
    listThreadApprovals (some sessions) id = (sessions.get id).getD [] := by
  rw [listThreadApprovals_eq, parsedRow, Option.map_some, Option.getD_some, get_parseSessions]
  cases hget : sessions.get id with
  | none => rfl
  | some grants =>
      rw [hget] at h
      exact parseGrants_of_storable h

theorem remember_outcome (hid : sessionId ∉ inheritedNames) :
    rememberThreadApproval stored sessionId grant =
      if grant ∈ listThreadApprovals stored sessionId then .settled
      else .write
        ((parsedRow stored).set sessionId (listThreadApprovals stored sessionId ++ [grant])) := by
  rw [listThreadApprovals_eq]
  simp only [rememberThreadApproval, heldGrants, if_neg hid, parsedRow]
  rcases Option.eq_none_or_eq_some (((stored.map parseSessions).getD .empty).get sessionId) with
    hget | ⟨current, hget⟩
  · simp only [hget, Option.getD_none, List.not_mem_nil, if_false, List.nil_append]
  · simp only [hget, Option.getD_some]

theorem list_remembered (hstorable : Storable grant) (hid : sessionId ∉ inheritedNames)
    (h : rememberThreadApproval stored sessionId grant = .write sessions) (id : String) :
    listThreadApprovals (some sessions) id =
      if id = sessionId then listThreadApprovals stored id ++ [grant]
      else listThreadApprovals stored id := by
  rw [remember_outcome hid] at h
  split at h
  · cases h
  cases h
  rw [list_some]
  · rw [Record.get_set]
    split
    · next heq => rw [heq, Option.getD_some]
    · rw [listThreadApprovals_eq stored id]
  · intro other hmem
    rw [Record.get_set] at hmem
    split at hmem
    · rcases List.mem_append.mp hmem with hold | hnew
      · exact storable_of_mem_list hold
      · exact List.mem_singleton.mp hnew ▸ hstorable
    · rw [← listThreadApprovals_eq] at hmem
      exact storable_of_mem_list hmem

theorem list_forgotten (h : forgetThreadApprovals stored sessionId = .write sessions)
    (id : String) :
    listThreadApprovals (some sessions) id =
      if id = sessionId then [] else listThreadApprovals stored id := by
  have hdelete : sessions = (parsedRow stored).delete sessionId := by
    cases stored with
    | none => cases h
    | some row =>
        simp only [forgetThreadApprovals, Option.map_some] at h
        split at h
        · cases h
        · cases h
          rfl
  subst hdelete
  rw [list_some]
  · rw [Record.get_delete]
    split
    · rfl
    · rw [listThreadApprovals_eq]
  · intro other hmem
    rw [Record.get_delete] at hmem
    split at hmem
    · cases hmem
    · rw [← listThreadApprovals_eq] at hmem
      exact storable_of_mem_list hmem

theorem list_of_settled (h : forgetThreadApprovals stored sessionId = .settled) :
    listThreadApprovals stored sessionId = [] := by
  cases stored with
  | none => rfl
  | some row =>
      simp only [forgetThreadApprovals, Option.map_some, heldGrants] at h
      rw [listThreadApprovals_eq, parsedRow, Option.map_some, Option.getD_some]
      cases hget : (parseSessions row).get sessionId with
      | none => rfl
      | some grants => simp only [hget] at h; cases h

theorem mem_list_of_settled (hid : sessionId ∉ inheritedNames)
    (h : rememberThreadApproval stored sessionId grant = .settled) :
    grant ∈ listThreadApprovals stored sessionId := by
  rw [remember_outcome hid] at h
  split at h
  · assumption
  · cases h

theorem remember_not_thrown (hid : sessionId ∉ inheritedNames) :
    rememberThreadApproval stored sessionId grant ≠ .thrown := by
  rw [remember_outcome hid]
  split <;> nofun

theorem forget_not_thrown : forgetThreadApprovals stored sessionId ≠ .thrown := by
  cases stored with
  | none => nofun
  | some row =>
      simp only [forgetThreadApprovals, Option.map_some]
      split <;> nofun

/-! ## Runs -/

/-- A remember is for a grant that can be stored and a name that no object has of its own, and a
call writes over the row that it read. -/
def Unmixed (w : ApprovalStore) : ApprovalAct → Prop
  | .call (.remember sessionId grant) => Storable grant ∧ sessionId ∉ inheritedNames
  | .call (.forget _) => True
  | .get _ => True
  | .set i => ∀ call ∈ w.calls[i]?, ∀ writing ∈ call.writing, w.row = writing.1

/-- What a request may be of: a remember, with what `Unmixed` asks, or a forget that is noted. -/
def Noted (w : ApprovalStore) : ApprovalRequest → Prop
  | .remember sessionId grant =>
      Storable grant ∧ sessionId ∉ inheritedNames ∧ sessionId ∉ w.cleared
  | .forget sessionId => sessionId ∈ w.forgotten

structure Kept (w : ApprovalStore) : Prop where
  noted : ∀ call ∈ w.calls, Noted w call.request
  writing : ∀ call ∈ w.calls, ∀ writing ∈ call.writing,
    call.request.outcome writing.1 = .write writing.2
  held : ∀ p ∈ w.remembered, p.1 ∈ w.forgotten ∨ p.2 ∈ listThreadApprovals w.row p.1
  cleared : ∀ sessionId ∈ w.cleared,
    (∃ call ∈ w.calls, call.request = .forget sessionId) ∨
      listThreadApprovals w.row sessionId = []

variable {w t : ApprovalStore}

theorem Kept.call {request : ApprovalRequest} (h : Kept w) (hguard : Unmixed w (.call request)) :
    Kept (w.call request) := by
  cases request with
  | remember sessionId grant =>
      simp only [ApprovalStore.call, if_neg hguard.1.1]
      refine ⟨?_, ?_, h.held, ?_⟩
      · intro call hmem
        rcases List.mem_append.mp hmem with hold | hnew
        · have hnoted := h.noted call hold
          cases hrequest : call.request with
          | remember id other =>
              rw [hrequest] at hnoted
              refine ⟨hnoted.1, hnoted.2.1, fun hcleared => hnoted.2.2 ?_⟩
              exact List.mem_of_mem_filter hcleared
          | forget id =>
              rw [hrequest] at hnoted
              exact hnoted
        · cases List.mem_singleton.mp hnew
          refine ⟨hguard.1, hguard.2, fun hcleared => ?_⟩
          simpa using List.of_mem_filter hcleared
      · intro call hmem
        rcases List.mem_append.mp hmem with hold | hnew
        · exact h.writing call hold
        · cases List.mem_singleton.mp hnew
          nofun
      · intro id hcleared
        rcases h.cleared id (List.mem_of_mem_filter hcleared) with ⟨call, hmem, heq⟩ | hnone
        · exact .inl ⟨call, List.mem_append_left _ hmem, heq⟩
        · exact .inr hnone
  | forget sessionId =>
      simp only [ApprovalStore.call]
      refine ⟨?_, ?_, fun p hmem => (h.held p hmem).imp_left (List.mem_append_left _), ?_⟩
      · intro call hmem
        rcases List.mem_append.mp hmem with hold | hnew
        · have hnoted := h.noted call hold
          cases hrequest : call.request with
          | remember id grant =>
              rw [hrequest] at hnoted
              refine ⟨hnoted.1, hnoted.2.1, fun hcleared => hnoted.2.2 ?_⟩
              dsimp only at hcleared
              split at hcleared
              · exact hcleared
              · next hnone =>
                  refine (List.mem_append.mp hcleared).resolve_right fun hid => hnone ?_
                  refine List.any_eq_true.mpr ⟨call, hold, ?_⟩
                  simp only [ApprovalStore.remembers, hrequest, decide_eq_true_eq]
                  exact List.mem_singleton.mp hid
          | forget id =>
              rw [hrequest] at hnoted
              exact List.mem_append_left _ hnoted
        · cases List.mem_singleton.mp hnew
          exact List.mem_append_right _ (List.mem_singleton.mpr rfl)
      · intro call hmem
        rcases List.mem_append.mp hmem with hold | hnew
        · exact h.writing call hold
        · cases List.mem_singleton.mp hnew
          nofun
      · intro id hcleared
        have hin : id ∈ w.cleared ∨ id = sessionId := by
          split at hcleared
          · exact .inl hcleared
          · exact (List.mem_append.mp hcleared).imp_right List.mem_singleton.mp
        rcases hin with hold | rfl
        · rcases h.cleared id hold with ⟨call, hmem, heq⟩ | hnone
          · exact .inl ⟨call, List.mem_append_left _ hmem, heq⟩
          · exact .inr hnone
        · exact .inl ⟨⟨.forget id, none⟩, List.mem_append_right _ (List.mem_singleton.mpr rfl), rfl⟩

/-- What a row has once a request has settled. -/
def Done (row : Option Sessions) : ApprovalRequest → Prop
  | .remember sessionId grant => grant ∈ listThreadApprovals row sessionId
  | .forget sessionId => listThreadApprovals row sessionId = []

/-- A call settles in a row that has what was stored before, and in which it has done its own. -/
theorem Kept.settle {i : Nat} {request : ApprovalRequest}
    {writing : Option (Option Sessions × Sessions)} {row : Option Sessions} (h : Kept w)
    (hi : w.calls[i]? = some ⟨request, writing⟩) (hdone : Done row request)
    (hheld : ∀ p ∈ w.remembered, p.1 ∈ w.forgotten ∨ p.2 ∈ listThreadApprovals row p.1)
    (hcleared : ∀ sessionId ∈ w.cleared, listThreadApprovals w.row sessionId = [] →
      listThreadApprovals row sessionId = []) :
    Kept ({ w with row := row, calls := w.calls.eraseIdx i }.settle request) := by
  have hleft : ∀ sessionId ∈ w.cleared,
      (∃ call ∈ w.calls.eraseIdx i, call.request = .forget sessionId) ∨
        listThreadApprovals row sessionId = [] := by
    intro sessionId hmem
    rcases h.cleared sessionId hmem with ⟨call, hcall, hrequest⟩ | hnone
    · obtain ⟨j, hj⟩ := List.mem_iff_getElem?.mp hcall
      by_cases heq : j = i
      · subst heq
        rw [hi] at hj
        cases hj
        cases hrequest
        exact .inr hdone
      · exact .inl ⟨call, List.mem_eraseIdx_iff_getElem?.mpr ⟨j, heq, hj⟩, hrequest⟩
    · exact .inr (hcleared sessionId hmem hnone)
  cases request with
  | remember sessionId grant =>
      refine ⟨fun call hmem => h.noted call (List.mem_of_mem_eraseIdx hmem),
        fun call hmem => h.writing call (List.mem_of_mem_eraseIdx hmem), ?_, hleft⟩
      intro p hmem
      rcases List.mem_append.mp hmem with hold | hnew
      · exact hheld p hold
      · cases List.mem_singleton.mp hnew
        exact .inr hdone
  | forget sessionId =>
      exact ⟨fun call hmem => h.noted call (List.mem_of_mem_eraseIdx hmem),
        fun call hmem => h.writing call (List.mem_of_mem_eraseIdx hmem), hheld, hleft⟩

theorem Kept.get {i : Nat} (h : Kept w) (hget : w.get i = some t) : Kept t := by
  simp only [ApprovalStore.get] at hget
  split at hget
  · next request hi =>
      cases hget
      have hmem : (⟨request, none⟩ : ApprovalCall) ∈ w.calls := List.mem_of_getElem? hi
      have hnoted := h.noted _ hmem
      have hsettled (hdone : Done w.row request) :
          Kept ({ w with calls := w.calls.eraseIdx i }.settle request) :=
        h.settle hi hdone h.held fun _ _ hnone => hnone
      split
      · next houtcome =>
          refine hsettled ?_
          cases request with
          | remember sessionId grant => exact mem_list_of_settled hnoted.2.1 houtcome
          | forget sessionId => exact list_of_settled houtcome
      · next houtcome =>
          cases request with
          | remember sessionId grant => exact absurd houtcome (remember_not_thrown hnoted.2.1)
          | forget sessionId => exact absurd houtcome forget_not_thrown
      · next sessions houtcome =>
          refine ⟨?_, ?_, h.held, ?_⟩
          · intro call hcall
            rcases List.mem_or_eq_of_mem_set hcall with hold | rfl
            · exact h.noted call hold
            · exact hnoted
          · intro call hcall
            rcases List.mem_or_eq_of_mem_set hcall with hold | rfl
            · exact h.writing call hold
            · intro writing hwriting
              cases hwriting
              exact houtcome
          · intro sessionId hcleared
            rcases h.cleared sessionId hcleared with ⟨call, hcall, hrequest⟩ | hnone
            · obtain ⟨j, hj⟩ := List.mem_iff_getElem?.mp hcall
              by_cases heq : j = i
              · subst heq
                rw [hi] at hj
                cases hj
                have hlt : j < w.calls.length := (List.getElem?_eq_some_iff.mp hi).1
                exact .inl ⟨_, List.mem_set hlt _, hrequest⟩
              · refine .inl ⟨call, List.mem_iff_getElem?.mpr ⟨j, ?_⟩, hrequest⟩
                rw [List.getElem?_set_ne (Ne.symm heq), hj]
            · exact .inr hnone
  · cases hget

theorem Kept.set {i : Nat} (h : Kept w) (hguard : Unmixed w (.set i)) (hset : w.set i = some t) :
    Kept t := by
  simp only [ApprovalStore.set] at hset
  split at hset
  · next request row sessions hi =>
      cases hset
      have hmem : (⟨request, some (row, sessions)⟩ : ApprovalCall) ∈ w.calls :=
        List.mem_of_getElem? hi
      have hnoted := h.noted _ hmem
      have hwriting : request.outcome row = .write sessions := h.writing _ hmem _ rfl
      have hrow : w.row = row := hguard _ hi _ rfl
      subst hrow
      cases request with
      | remember sessionId grant =>
          have hlist := list_remembered hnoted.1 hnoted.2.1 hwriting
          refine h.settle hi ?_ ?_ ?_
          · rw [Done, hlist, if_pos rfl]
            exact List.mem_append_right _ (List.mem_singleton.mpr rfl)
          · intro p hp
            refine (h.held p hp).imp_right fun hin => ?_
            rw [hlist]
            split
            · exact List.mem_append_left _ hin
            · exact hin
          · intro id hcleared hnone
            rw [hlist, if_neg (ne_of_mem_of_not_mem hcleared hnoted.2.2), hnone]
      | forget sessionId =>
          have hlist := list_forgotten hwriting
          refine h.settle hi ?_ ?_ ?_
          · rw [Done, hlist, if_pos rfl]
          · intro p hp
            by_cases heq : p.1 = sessionId
            · exact .inl (heq ▸ hnoted)
            · refine (h.held p hp).imp_right fun hin => ?_
              rw [hlist, if_neg heq]
              exact hin
          · intro id hcleared hnone
            rw [hlist, hnone, ite_self]
  · cases hset

theorem Kept.step {a : ApprovalAct} (h : Kept w) (hguard : Unmixed w a)
    (hstep : w.step a = some t) : Kept t := by
  cases a with
  | call request =>
      cases hstep
      exact h.call hguard
  | get i => exact h.get hstep
  | set i => exact h.set hguard hstep

theorem Kept.start (row : Option Sessions) : Kept ⟨row, [], [], [], []⟩ where
  noted _ hmem := by cases hmem
  writing _ hmem := by cases hmem
  held _ hmem := by cases hmem
  cleared _ hmem := by cases hmem

/-- When all calls have settled, a session that no forget was called for has all its grants, and
one that was forgotten after its remembers has none. -/
theorem approvals_kept {row : Option Sessions}
    (h : Reach ApprovalStore.step Unmixed ⟨row, [], [], [], []⟩ w) (hsettled : w.calls = []) :
    (∀ sessionId grant, (sessionId, grant) ∈ w.remembered → sessionId ∉ w.forgotten →
      grant ∈ listThreadApprovals w.row sessionId) ∧
    ∀ sessionId ∈ w.cleared, listThreadApprovals w.row sessionId = [] := by
  have hkept : Kept w := h.invariant (fun _ _ _ hkept => hkept.step) (.start row)
  constructor
  · intro sessionId grant hmem hnever
    exact (hkept.held _ hmem).resolve_left hnever
  · intro sessionId hmem
    refine (hkept.cleared sessionId hmem).resolve_left fun ⟨call, hcall, _⟩ => ?_
    rw [hsettled] at hcall
    cases hcall

/-! ## Two calls at once -/

instance : DecidableEq Sessions
  | ⟨entries, _⟩, ⟨entries', _⟩ =>
      decidable_of_iff (entries = entries') (by rw [Record.mk.injEq])

instance (w : ApprovalStore) (a : ApprovalAct) : Decidable (Unmixed w a) :=
  match a with
  | .call (.remember _ _) => inferInstanceAs (Decidable (_ ∧ _))
  | .call (.forget _) => inferInstanceAs (Decidable True)
  | .get _ => inferInstanceAs (Decidable True)
  | .set i => inferInstanceAs (Decidable
      (∀ call ∈ w.calls[i]?, ∀ writing ∈ call.writing, w.row = writing.1))

def exampleStore : ApprovalStore := ⟨none, [], [], [], []⟩

def exampleGrant : ThreadApprovalGrant := ⟨"bash", ["git status"]⟩

/-- A session gets its grant, another is forgotten after it got one. -/
def oneByOne : List ApprovalAct :=
  [.call (.remember "a" exampleGrant), .get 0, .set 0, .call (.remember "b" exampleGrant), .get 0,
    .set 0, .call (.forget "b"), .get 0, .set 0]

theorem approvals_kept_one_by_one :
    ∃ w, runActions ApprovalStore.step oneByOne exampleStore = some w ∧
      exampleGrant ∈ listThreadApprovals w.row "a" ∧ listThreadApprovals w.row "b" = [] := by
  have hrun : (runActions (fun w a => if Unmixed w a then w.step a else none) oneByOne
      exampleStore).any (fun w => w.calls.isEmpty && ("a", exampleGrant) ∈ w.remembered &&
        "a" ∉ w.forgotten && "b" ∈ w.cleared) = true := by decide +kernel
  obtain ⟨w, hw, hstate⟩ := exists_of_any hrun
  simp only [Bool.and_eq_true, decide_eq_true_eq, List.isEmpty_iff] at hstate
  obtain ⟨⟨⟨hcalls, hmem⟩, hnever⟩, hcleared⟩ := hstate
  obtain ⟨hreach, hruns⟩ := reach_of_checked hw
  obtain ⟨hheld, hnone⟩ := approvals_kept hreach hcalls
  exact ⟨w, hruns, hheld "a" _ hmem hnever, hnone "b" hcleared⟩

/-- Two remembers of different sessions read the same row: the grant that is written first is
lost. A remember reads, and what is forgotten before it writes is back. -/
theorem approvals_lost_and_back :
    (∃ w, runActions ApprovalStore.step [.call (.remember "a" exampleGrant),
        .call (.remember "b" exampleGrant), .get 0, .get 1, .set 0, .set 0] exampleStore = some w ∧
      w.calls = [] ∧ ("a", exampleGrant) ∈ w.remembered ∧ "a" ∉ w.forgotten ∧
      exampleGrant ∉ listThreadApprovals w.row "a") ∧
    ∃ w, runActions ApprovalStore.step [.call (.remember "a" exampleGrant), .get 0, .set 0,
        .call (.remember "b" exampleGrant), .get 0, .call (.forget "a"), .get 1, .set 1, .set 0]
        exampleStore = some w ∧
      w.calls = [] ∧ "a" ∈ w.cleared ∧ listThreadApprovals w.row "a" = [exampleGrant] := by
  have hlost : (runActions ApprovalStore.step [.call (.remember "a" exampleGrant),
      .call (.remember "b" exampleGrant), .get 0, .get 1, .set 0, .set 0] exampleStore).any
      (fun w => w.calls.isEmpty && ("a", exampleGrant) ∈ w.remembered && "a" ∉ w.forgotten &&
        exampleGrant ∉ listThreadApprovals w.row "a") = true := by decide +kernel
  have hback : (runActions ApprovalStore.step [.call (.remember "a" exampleGrant), .get 0, .set 0,
      .call (.remember "b" exampleGrant), .get 0, .call (.forget "a"), .get 1, .set 1, .set 0]
      exampleStore).any (fun w => w.calls.isEmpty && "a" ∈ w.cleared &&
        listThreadApprovals w.row "a" = [exampleGrant]) = true := by decide +kernel
  obtain ⟨w, hw, hstate⟩ := exists_of_any hlost
  obtain ⟨v, hv, hstate'⟩ := exists_of_any hback
  simp only [Bool.and_eq_true, decide_eq_true_eq, List.isEmpty_iff] at hstate hstate'
  exact ⟨⟨w, hw, hstate.1.1.1, hstate.1.1.2, hstate.1.2, hstate.2⟩,
    v, hv, hstate'.1.1, hstate'.1.2, hstate'.2⟩

end OmniRush.Approvals
