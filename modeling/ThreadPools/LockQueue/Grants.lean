/-
# Who has been granted a target

A target is locked by the thread of the queue for the one request that has been granted
and not been released since. Of such a request exactly one of three things is true: its
client has not read the result yet, or the client may ask for its release, or this
has been asked for and the queue has not come to it.
-/

import ThreadPools.LockQueue.Places

namespace ThreadPools.LockQueue

open ThreadPools.Concurrency

/-- Dropping the elements with the key of one of them drops a single key. -/
theorem perm_keys_filter {α β : Type*} [DecidableEq β] {f : α → β} {l : List α}
    (hnodup : (l.map f).Nodup) {key : β} (hkey : key ∈ l.map f) :
    (l.map f).Perm (key :: (l.filter fun x => some key ≠ some (f x)).map f) := by
  have hfilter : (l.filter fun x => some key ≠ some (f x)).map f = (l.map f).erase key := by
    rw [hnodup.erase_eq_filter, List.filter_map]
    congr 1
    refine List.filter_congr fun x _ => ?_
    show decide (some key ≠ some (f x)) = (f x != key)
    rw [Bool.eq_iff_iff, bne_iff_ne, decide_eq_true_iff, ne_comm, ne_eq, ne_eq, Option.some_inj]
  rw [hfilter]
  exact List.perm_cons_erase hkey

namespace Shared

/-- The granted requests whose release has been asked for. -/
def claims (shared : Shared) : List RequestId :=
  (shared.drafts ++ shared.pendingRelease).filterMap LockRequest.releases

/-- The requests that have been granted and whose release has not been carried out. -/
def unreleased (shared : Shared) : List LockRequest :=
  shared.granted.filter fun granted => ∀ r ∈ shared.answered, r.releases ≠ some granted.id

structure Grants (shared : Shared) : Prop where
  holders : shared.holders = shared.unreleased
  released : ∀ r ∈ shared.answered, ∀ id, r.releases = some id →
    ∃ granted ∈ shared.answered, granted.id = id
  answered : ∀ r ∈ shared.holders, r ∈ shared.answered
  targets : (shared.holders.map LockRequest.target).Nodup
  locked : ∀ target, shared.isLocked target = true ↔
    target ∈ shared.holders.map LockRequest.target
  known : ∀ r ∈ shared.unread ++ shared.outstanding, r ∈ shared.holders
  grants : (shared.holders.map LockRequest.id).Perm
    (shared.unread.map LockRequest.id ++ shared.outstanding.map LockRequest.id ++
      shared.claims)
  claimed : ∀ r ∈ shared.drafts ++ shared.pendingRelease, ∀ id, r.releases = some id →
    ∃ granted ∈ shared.holders, granted.id = id ∧ granted.target = r.target

variable {shared : Shared} {r : LockRequest} {rest : List LockRequest}

namespace Grants

/-- A target is held for one request. -/
theorem eq_of_target (h : shared.Grants) {first second : LockRequest}
    (hfirst : first ∈ shared.holders) (hsecond : second ∈ shared.holders)
    (htarget : first.target = second.target) : first = second :=
  List.inj_on_of_nodup_map h.targets hfirst hsecond htarget

theorem ids_nodup (h : shared.Grants) (hplaces : shared.Places) :
    (shared.holders.map LockRequest.id).Nodup := by
  have hmem : ∀ r ∈ shared.holders, r ∈ shared.requests := fun r hr =>
    hplaces.mem_requests (List.mem_append_right _ (h.answered r hr))
  refine List.Nodup.map_on (fun first hfirst second hsecond hid => ?_) h.targets.of_map
  exact hplaces.eq_of_id (hmem first hfirst) (hmem second hsecond) hid

/-- A request for a release makes a claim of what its client may release. -/
theorem claim (h : shared.Grants) (hplaces : shared.Places) {granted : LockRequest}
    (hgranted : granted ∈ shared.outstanding) (htarget : granted.target = r.target)
    (hreleases : r.releases = some granted.id) : (shared.create r).Grants := by
  have hnodup : (shared.outstanding.map LockRequest.id).Nodup := by
    have hall := h.grants.nodup_iff.mp (h.ids_nodup hplaces)
    exact (List.nodup_append.mp (List.nodup_append.mp hall).1).2.1
  have hperm := perm_keys_filter hnodup (List.mem_map_of_mem hgranted)
  refine ⟨h.holders, h.released, h.answered, h.targets, h.locked, fun other hother => ?_, ?_,
    fun other hother => ?_⟩
  · refine h.known other ?_
    rcases List.mem_append.mp hother with hunread | houtstanding
    · exact List.mem_append_left _ hunread
    · exact List.mem_append_right _ (List.mem_of_mem_filter houtstanding)
  · refine h.grants.trans ?_
    show List.Perm _ (shared.unread.map _ ++
      (shared.outstanding.filter fun x => r.releases ≠ some x.id).map _ ++
        ((shared.drafts ++ [r]) ++ shared.pendingRelease).filterMap _)
    rw [List.append_assoc shared.drafts, List.filterMap_append, List.filterMap_append, hreleases]
    have hclaims : shared.claims = shared.drafts.filterMap LockRequest.releases ++
        shared.pendingRelease.filterMap LockRequest.releases := List.filterMap_append
    rw [hclaims, List.filterMap_cons_some hreleases, List.filterMap_nil]
    refine ((hperm.append_left _).append_right _).trans ?_
    rw [List.append_assoc, List.append_assoc]
    refine List.Perm.append_left _ ?_
    rw [List.cons_append]
    refine List.perm_middle.symm.trans ?_
    rw [List.singleton_append]
    exact List.Perm.append_left _ List.perm_middle.symm
  · have hcases : other ∈ shared.drafts ++ shared.pendingRelease ∨ other = r := by
      simpa [Shared.create, or_assoc, or_comm, or_left_comm] using hother
    rcases hcases with hother | rfl
    · exact h.claimed other hother
    · rintro id hid
      have heq : granted.id = id := Option.some.inj (hreleases.symm.trans hid)
      exact ⟨granted, h.known _ (List.mem_append_right _ hgranted), heq, htarget⟩

/-- Other requests claim nothing. -/
theorem create (h : shared.Grants) (hreleases : r.releases = none) :
    (shared.create r).Grants := by
  have houtstanding : (shared.create r).outstanding = shared.outstanding := by
    show (shared.outstanding.filter fun x => r.releases ≠ some x.id) = _
    rw [hreleases]
    exact List.filter_eq_self.mpr fun _ _ => rfl
  have hclaims : (shared.create r).claims = shared.claims := by
    show ((shared.drafts ++ [r]) ++ shared.pendingRelease).filterMap _ = _
    rw [List.append_assoc, List.filterMap_append, List.singleton_append,
      List.filterMap_cons_none hreleases]
    exact List.filterMap_append.symm
  refine ⟨h.holders, h.released, h.answered, h.targets, h.locked, ?_, ?_,
    fun other hother => ?_⟩
  · rw [houtstanding]
    exact h.known
  · rw [houtstanding, hclaims]
    exact h.grants
  · have hcases : other ∈ shared.drafts ++ shared.pendingRelease ∨ other = r := by
      simpa [Shared.create, or_assoc, or_comm, or_left_comm] using hother
    rcases hcases with hother | rfl
    · exact h.claimed other hother
    · intro id hid
      exact absurd (hreleases.symm.trans hid) nofun

theorem add (h : shared.Grants) (hr : r ∈ shared.drafts) : (shared.add r).Grants := by
  have hperm : (shared.drafts ++ shared.pendingRelease).Perm
      (shared.drafts.erase r ++ r :: shared.pendingRelease) :=
    ((List.perm_cons_erase hr).append_right _).trans List.perm_middle.symm
  unfold Shared.add
  split
  · next hreleases =>
      refine ⟨h.holders, h.released, h.answered, h.targets, h.locked, h.known,
        h.grants.trans ?_, fun other hother => h.claimed other (hperm.mem_iff.mpr ?_)⟩
      · refine List.Perm.append_left _ ((hperm.filterMap _).trans ?_)
        rw [List.filterMap_append, List.filterMap_cons_none hreleases, ← List.filterMap_append]
        exact .refl _
      · rcases List.mem_append.mp hother with hother | hother
        · exact List.mem_append_left _ hother
        · exact List.mem_append_right _ (List.mem_cons_of_mem r hother)
  · have hlast : (shared.drafts.erase r ++ r :: shared.pendingRelease).Perm
        (shared.drafts.erase r ++ (shared.pendingRelease ++ [r])) :=
      (List.perm_append_singleton r _).symm.append_left _
    exact ⟨h.holders, h.released, h.answered, h.targets, h.locked, h.known,
      h.grants.trans (List.Perm.append_left _ ((hperm.trans hlast).filterMap _)),
      fun other hother => h.claimed other ((hperm.trans hlast).mem_iff.mpr hother)⟩

theorem read (h : shared.Grants)
    (hunread : shared.tryLockResult r.id = .locked → r ∈ shared.unread) :
    (shared.read r).Grants := by
  unfold Shared.read
  split
  · next hlocked =>
      have hr := hunread hlocked
      refine ⟨h.holders, h.released, h.answered, h.targets, h.locked,
        fun other hother => h.known other ?_, h.grants.trans ?_, h.claimed⟩
      · rcases List.mem_append.mp hother with hother | hother
        · exact List.mem_append_left _ (List.mem_of_mem_erase hother)
        · rcases List.mem_append.mp hother with hother | hother
          · exact List.mem_append_right _ hother
          · rw [List.mem_singleton.mp hother]
            exact List.mem_append_left _ hr
      · refine List.Perm.append_right _ ?_
        rw [List.map_append, ← List.append_assoc]
        refine (((List.perm_cons_erase hr).map LockRequest.id).append_right _).trans ?_
        exact (List.perm_append_singleton r.id _).symm
  · exact h

/-! The queue unlocks the target of a granted request. -/

section Unlock

variable {granted : LockRequest}

theorem mem_holders_unlock (shared : Shared) (hid : r.releases = some granted.id)
    (other : LockRequest) :
    other ∈ (shared.unlock r).holders ↔ other ∈ shared.holders ∧ other.id ≠ granted.id := by
  show other ∈ shared.holders.filter _ ↔ _
  rw [List.mem_filter, hid, decide_eq_true_iff]
  exact and_congr_right fun _ => ⟨fun hne heq => hne (congrArg some heq.symm),
    fun hne heq => hne (Option.some.inj heq).symm⟩

theorem pendingRelease_unlock (hpending : shared.pendingRelease = r :: rest) :
    (shared.unlock r).pendingRelease = rest := by
  show shared.pendingRelease.tail = rest
  rw [hpending, List.tail_cons]

/-- The claim of the first pending release is the one that goes. -/
theorem claims_perm (hpending : shared.pendingRelease = r :: rest)
    (hid : r.releases = some granted.id) :
    shared.claims.Perm (granted.id :: (shared.drafts ++ rest).filterMap LockRequest.releases) := by
  unfold Shared.claims
  rw [hpending]
  refine (List.perm_middle.filterMap _).trans ?_
  rw [List.filterMap_cons_some hid]

theorem holders_unlock (h : shared.Grants) :
    (shared.unlock r).holders = (shared.unlock r).unreleased := by
  show shared.holders.filter _ = shared.granted.filter _
  rw [h.holders, unreleased, List.filter_filter]
  refine List.filter_congr fun other _ => ?_
  rw [← Bool.decide_and, decide_eq_decide]
  refine ⟨fun hother x hx => ?_, fun hother => ⟨?_, fun x hx => ?_⟩⟩
  · rcases List.mem_append.mp hx with hx | hx
    · exact hother.2 x hx
    · exact List.mem_singleton.mp hx ▸ hother.1
  · exact hother r (List.mem_append_right _ List.mem_cons_self)
  · exact hother x (List.mem_append_left _ hx)

theorem locked_unlock (h : shared.Grants) (hplaces : shared.Places)
    (hgranted : granted ∈ shared.holders) (hid : r.releases = some granted.id)
    (htarget : granted.target = r.target) (target : Target) :
    (shared.unlock r).isLocked target = true ↔
      target ∈ (shared.unlock r).holders.map LockRequest.target := by
  have hholders := mem_holders_unlock shared hid
  show Function.update shared.isLocked r.target false target = true ↔ _
  by_cases heq : target = r.target
  · subst heq
    rw [Function.update_self]
    refine iff_of_false nofun fun hheld => ?_
    obtain ⟨other, hother, hsame⟩ := List.mem_map.mp hheld
    obtain ⟨hother, hne⟩ := (hholders other).mp hother
    rw [h.eq_of_target hother hgranted (hsame.trans htarget.symm)] at hne
    exact hne rfl
  · rw [Function.update_of_ne heq, h.locked, List.mem_map, List.mem_map]
    refine exists_congr fun other => ?_
    rw [hholders]
    refine ⟨fun hheld => ⟨⟨hheld.1, fun hsame => heq ?_⟩, hheld.2⟩,
      fun hheld => ⟨hheld.1.1, hheld.2⟩⟩
    rw [← hheld.2, ← htarget,
      List.inj_on_of_nodup_map (h.ids_nodup hplaces) hheld.1 hgranted hsame]

theorem grants_unlock (h : shared.Grants) (hplaces : shared.Places)
    (hpending : shared.pendingRelease = r :: rest) (hgranted : granted ∈ shared.holders)
    (hid : r.releases = some granted.id) :
    ((shared.unlock r).holders.map LockRequest.id).Perm
      (shared.unread.map LockRequest.id ++ shared.outstanding.map LockRequest.id ++
        (shared.unlock r).claims) := by
  have hsame := perm_keys_filter (h.ids_nodup hplaces) (List.mem_map_of_mem hgranted)
  have hboth : List.Perm
      (granted.id :: (shared.unlock r).holders.map LockRequest.id)
      (granted.id :: (shared.unread.map LockRequest.id ++
        shared.outstanding.map LockRequest.id ++ (shared.unlock r).claims)) := by
    refine .trans ?_ (h.grants.trans (((claims_perm hpending hid).append_left _).trans ?_))
    · show List.Perm (granted.id :: (shared.holders.filter fun x =>
        r.releases ≠ some x.id).map LockRequest.id) _
      rw [hid]
      exact hsame.symm
    · unfold Shared.claims
      rw [pendingRelease_unlock hpending]
      exact List.perm_middle
  exact hboth.cons_inv

/-- The claims of the other requests are not concerned. -/
theorem claimed_unlock (h : shared.Grants) (hplaces : shared.Places)
    (hpending : shared.pendingRelease = r :: rest) (hid : r.releases = some granted.id)
    {other : LockRequest} (hother : other ∈ shared.drafts ++ rest) {otherId : RequestId}
    (hotherId : other.releases = some otherId) :
    ∃ held ∈ (shared.unlock r).holders, held.id = otherId ∧ held.target = other.target := by
  have hbefore : other ∈ shared.drafts ++ shared.pendingRelease := by
    rw [hpending]
    rcases List.mem_append.mp hother with hother | hother
    · exact List.mem_append_left _ hother
    · exact List.mem_append_right _ (List.mem_cons_of_mem r hother)
  obtain ⟨held, hheld, rfl, hsame⟩ := h.claimed other hbefore otherId hotherId
  refine ⟨held, (mem_holders_unlock shared hid held).mpr ⟨hheld, fun heq => ?_⟩, rfl, hsame⟩
  have hall := h.grants.nodup_iff.mp (h.ids_nodup hplaces)
  have hnodup := (claims_perm hpending hid).nodup_iff.mp (List.nodup_append.mp hall).2.1
  refine (List.nodup_cons.mp hnodup).1 ?_
  rw [← heq]
  exact List.mem_filterMap.mpr ⟨other, hother, hotherId⟩

end Unlock

theorem unlock (h : shared.Grants) (hplaces : shared.Places)
    (hpending : shared.pendingRelease = r :: rest) : (shared.unlock r).Grants := by
  have hmem : r ∈ shared.drafts ++ shared.pendingRelease := by
    rw [hpending]
    exact List.mem_append_right _ List.mem_cons_self
  obtain ⟨id, hid⟩ := Option.ne_none_iff_exists'.mp
    (hplaces.releases r (hpending ▸ List.mem_cons_self))
  obtain ⟨granted, hgranted, rfl, htarget⟩ := h.claimed r hmem id hid
  have hholders := mem_holders_unlock shared hid
  refine ⟨h.holders_unlock, fun other hother otherId hotherId => ?_, fun other hother => ?_,
    h.targets.sublist (List.filter_sublist.map _), h.locked_unlock hplaces hgranted hid htarget,
    fun other hother => ?_, h.grants_unlock hplaces hpending hgranted hid,
    fun other hother otherId hotherId => ?_⟩
  · rcases List.mem_append.mp hother with hother | hother
    · obtain ⟨held, hheld, heq⟩ := h.released other hother otherId hotherId
      exact ⟨held, List.mem_append_left _ hheld, heq⟩
    · rw [List.mem_singleton.mp hother, hid] at hotherId
      exact ⟨granted, List.mem_append_left _ (h.answered granted hgranted),
        Option.some.inj hotherId⟩
  · exact List.mem_append_left _ (h.answered other ((hholders other).mp hother).1)
  · refine (hholders other).mpr ⟨h.known other hother, fun hsame => ?_⟩
    have hall := h.grants.nodup_iff.mp (h.ids_nodup hplaces)
    have hclaim : granted.id ∈ shared.claims :=
      (claims_perm hpending hid).mem_iff.mpr List.mem_cons_self
    refine (List.nodup_append.mp hall).2.2 other.id ?_ granted.id hclaim hsame
    rw [← List.map_append]
    exact List.mem_map_of_mem hother
  · change other ∈ shared.drafts ++ (shared.unlock r).pendingRelease at hother
    rw [pendingRelease_unlock hpending] at hother
    exact h.claimed_unlock hplaces hpending hid hother hotherId

/-- The answer to a request for a lock releases nothing. -/
theorem not_released (hreleases : r.releases = none) (granted : LockRequest) :
    (∀ x ∈ shared.answered ++ [r], x.releases ≠ some granted.id) ↔
      ∀ x ∈ shared.answered, x.releases ≠ some granted.id := by
  refine ⟨fun h x hx => h x (List.mem_append_left _ hx), fun h x hx => ?_⟩
  rcases List.mem_append.mp hx with hx | hx
  · exact h x hx
  · rw [List.mem_singleton.mp hx, hreleases]
    nofun

theorem released_answer (h : shared.Grants) (hreleases : r.releases = none) :
    ∀ x ∈ shared.answered ++ [r], ∀ id, x.releases = some id →
      ∃ granted ∈ shared.answered ++ [r], granted.id = id := by
  intro x hx id hid
  rcases List.mem_append.mp hx with hx | hx
  · obtain ⟨granted, hgranted, heq⟩ := h.released x hx id hid
    exact ⟨granted, List.mem_append_left _ hgranted, heq⟩
  · rw [List.mem_singleton.mp hx, hreleases] at hid
    cases hid

/-- A pending request has not been released. -/
theorem pending_not_released (h : shared.Grants) (hplaces : shared.Places)
    (hpending : r ∈ shared.pendingLock) : ∀ x ∈ shared.answered, x.releases ≠ some r.id := by
  intro x hx hid
  obtain ⟨granted, hgranted, heq⟩ := h.released x hx r.id hid
  have hnodup := hplaces.issued.nodup_iff.mp hplaces.issued_nodup
  have hr : r ∈ shared.pendingLock ++ shared.pendingRelease := List.mem_append_left _ hpending
  refine (List.nodup_append.mp hnodup).2.2 r hr granted hgranted ?_
  exact (hplaces.eq_of_id (hplaces.mem_requests (List.mem_append_right _ hgranted))
    (hplaces.mem_requests (List.mem_append_left _ hr)) heq).symm

theorem grant (h : shared.Grants) (hplaces : shared.Places)
    (hpending : shared.pendingLock = r :: rest) (hfree : shared.isLocked r.target = false) :
    (shared.grant r).Grants := by
  have hr : r ∈ shared.pendingLock := hpending ▸ List.mem_cons_self
  have hnew : r.target ∉ shared.holders.map LockRequest.target := fun hmem =>
    absurd ((h.locked r.target).mpr hmem) (by rw [hfree]; nofun)
  refine ⟨?_, h.released_answer (hplaces.locks r hr), fun other hother => ?_, ?_,
    fun target => ?_, fun other hother => ?_, ?_, fun other hother id hid => ?_⟩
  · show shared.holders ++ [r] = (shared.granted ++ [r]).filter fun granted =>
      ∀ x ∈ shared.answered ++ [r], x.releases ≠ some granted.id
    simp only [not_released (hplaces.locks r hr)]
    rw [List.filter_append, h.holders, unreleased]
    refine congrArg _ (List.filter_eq_self.mpr fun x hx => decide_eq_true ?_).symm
    rw [List.mem_singleton.mp hx]
    exact h.pending_not_released hplaces hr
  · rcases List.mem_append.mp hother with hother | hother
    · exact List.mem_append_left _ (h.answered other hother)
    · exact List.mem_append_right _ hother
  · show ((shared.holders ++ [r]).map LockRequest.target).Nodup
    rw [List.map_append]
    refine List.nodup_append.mpr ⟨h.targets, List.nodup_singleton _, ?_⟩
    rintro target htarget other hother rfl
    exact hnew (List.mem_singleton.mp hother ▸ htarget)
  · show Function.update shared.isLocked r.target true target = true ↔
      target ∈ (shared.holders ++ [r]).map LockRequest.target
    by_cases heq : target = r.target
    · subst heq
      simp
    · rw [Function.update_of_ne heq, h.locked, List.map_append, List.mem_append]
      exact (or_iff_left fun hlast => heq (List.mem_singleton.mp hlast)).symm
  · have hcases : other ∈ shared.unread ++ shared.outstanding ∨ other = r := by
      simpa [Shared.grant, or_assoc, or_comm, or_left_comm] using hother
    rcases hcases with hother | rfl
    · exact List.mem_append_left _ (h.known other hother)
    · exact List.mem_append_right _ List.mem_cons_self
  · show ((shared.holders ++ [r]).map LockRequest.id).Perm
      ((shared.unread ++ [r]).map LockRequest.id ++ shared.outstanding.map LockRequest.id ++
        shared.claims)
    rw [List.map_append, List.map_append, List.append_assoc, List.append_assoc]
    refine ((List.perm_append_singleton r.id _).trans ((h.grants.cons r.id).trans ?_))
    rw [List.append_assoc]
    exact List.perm_middle.symm
  · obtain ⟨granted, hgranted, heq, htarget⟩ := h.claimed other hother id hid
    exact ⟨granted, List.mem_append_left _ hgranted, heq, htarget⟩

theorem refuse (h : shared.Grants) (hplaces : shared.Places)
    (hpending : shared.pendingLock = r :: rest) (result : TryLockResult) :
    (shared.refuse r result).Grants := by
  have hreleases := hplaces.locks r (hpending ▸ List.mem_cons_self)
  refine ⟨?_, h.released_answer hreleases, fun other hother =>
    List.mem_append_left _ (h.answered other hother), h.targets, h.locked, h.known, h.grants,
    h.claimed⟩
  show shared.holders = shared.granted.filter fun granted =>
    ∀ x ∈ shared.answered ++ [r], x.releases ≠ some granted.id
  simp only [not_released hreleases]
  exact h.holders

end Grants

end Shared

/-! ## What the threads know -/

/-- The request a client has created and not given up yet. -/
def Point.request : Point → Option LockRequest
  | .client (.enter r) | .client (.add r) | .client (.wait r) | .client (.woken r)
  | .client (.leave r) => some r
  | _ => none

/-- The client of a locked request has not read the result. -/
def grants : Annotation ThreadId MonitorId Shared Point where
  assertion _ p shared := ∀ r, p.request = some r →
    shared.tryLockResult r.id = .locked → r ∈ shared.unread
  resource _ _ := True
  invariant := Shared.Grants

variable {recursive : Bool} {shared : Shared} {t other : ThreadId} {order : Order}
  {p place : Point} {piece : Piece Point} {e : Effect} {r : LockRequest}

/-- A client knows its own request. -/
theorem Point.Knows.request (hknows : p.Knows shared t) (hr : p.request = some r) :
    t = .client r.id.client ∧ r ∈ shared.requests := by
  cases t with
  | client c =>
      cases p with
      | client q =>
          cases q with
          | idle => cases hr
          | enter | add =>
              cases hr
              exact ⟨congrArg ThreadId.client hknows.2.symm, List.mem_append_left _ hknows.1⟩
          | wait | woken | leave =>
              cases hr
              exact ⟨congrArg ThreadId.client hknows.2.symm, List.mem_append_right _ hknows.1⟩
      | queue => cases hr
      | owner => cases hr
  | queue =>
      cases p with
      | client => exact hknows.elim
      | queue => cases hr
      | owner => cases hr
  | owner =>
      cases p with
      | client => exact hknows.elim
      | queue => cases hr
      | owner => cases hr

/-- The result of a request is written by its client and by the queue. -/
theorem Moves.unread (hmoves : Moves shared t order p piece) (heffect : piece.effect = some e)
    (hplaces : shared.Places) (hknows : p.Knows shared t) (hr : r ∈ shared.requests)
    (hother : t ≠ .client r.id.client)
    (hunread : shared.tryLockResult r.id = .locked → r ∈ shared.unread)
    (hlocked : (shared.apply e).tryLockResult r.id = .locked) : r ∈ (shared.apply e).unread := by
  cases hmoves <;> cases heffect
  case create c draft hdraft =>
    have hne : r.id ≠ draft.id := by
      intro hid
      refine hother (congrArg ThreadId.client ?_)
      rw [hid, hdraft]
      cases order <;> rfl
    refine hunread ?_
    rw [← hlocked]
    exact (Function.update_of_ne hne _ _).symm
  case add c draft =>
    simp only [Shared.apply, Shared.add] at hlocked ⊢
    split at hlocked <;> exact hunread hlocked
  case leave c draft =>
    have hne : r ≠ draft := by
      rintro rfl
      exact hother (congrArg ThreadId.client hknows.2.symm)
    simp only [Shared.apply, Shared.read] at hlocked ⊢
    split at hlocked
    · next hread =>
        rw [if_pos hread]
        exact (List.mem_erase_of_ne hne).mpr (hunread hlocked)
    · next hread =>
        rw [if_neg hread]
        exact hunread hlocked
  case grant left draft rest hpending hfree =>
    by_cases hid : r.id = draft.id
    · have hdraft : draft ∈ shared.requests := by
        refine hplaces.mem_requests (List.mem_append_left _ (List.mem_append_left _ ?_))
        rw [hpending]
        exact List.mem_cons_self
      rw [hplaces.eq_of_id hr hdraft hid]
      exact List.mem_append_right _ List.mem_cons_self
    · refine List.mem_append_left _ (hunread ?_)
      rw [← hlocked]
      exact (Function.update_of_ne hid _ _).symm
  case refuse left draft rest result hpending hwait hresult =>
    by_cases hid : r.id = draft.id
    · have hwritten : (shared.refuse draft result).tryLockResult r.id = result := by
        rw [hid]
        exact Function.update_self draft.id result shared.tryLockResult
      exact absurd (hwritten.symm.trans hlocked) hresult
    · refine hunread ?_
      rw [← hlocked]
      exact (Function.update_of_ne hid _ _).symm
  all_goals exact hunread hlocked

/-- The grants stay in order. -/
theorem Moves.grants (hmoves : Moves shared t order p piece) (heffect : piece.effect = some e)
    (hplaces : shared.Places) (hknows : p.Knows shared t) (husage : Usage t order p shared)
    (hunread : ∀ r, p.request = some r →
      shared.tryLockResult r.id = .locked → r ∈ shared.unread)
    (hgrants : shared.Grants) : (shared.apply e).Grants := by
  cases hmoves <;> cases heffect
  case create c r hr =>
    cases order with
    | acquire target waitForLock => exact hgrants.create (by rw [hr]; rfl)
    | release granted =>
        exact hgrants.claim hplaces husage.2.1 (by rw [hr]; rfl) (by rw [hr]; rfl)
  case add => exact hgrants.add hknows.1
  case leave r => exact hgrants.read (hunread r rfl)
  case unlock rest hpending => exact hgrants.unlock hplaces hpending
  case grant rest hpending hfree => exact hgrants.grant hplaces hpending hfree
  case refuse rest result hpending hwait hresult =>
    exact hgrants.refuse hplaces hpending result
  case clear =>
    obtain ⟨-, hrelease, -⟩ := hknows rfl
    refine ⟨hgrants.holders, hgrants.released, hgrants.answered, hgrants.targets,
      hgrants.locked, hgrants.known, ?_, ?_⟩
    · have hperm := hgrants.grants
      unfold Shared.claims at hperm
      rw [hrelease] at hperm
      exact hperm
    · have hclaimed := hgrants.claimed
      rw [hrelease] at hclaimed
      exact hclaimed
  all_goals
    exact ⟨hgrants.holders, hgrants.released, hgrants.answered, hgrants.targets,
      hgrants.locked, hgrants.known, hgrants.grants, hgrants.claimed⟩

/-- A client that goes on finds its request granted only if it is. -/
theorem Moves.unread_self (hmoves : Moves shared t order p piece)
    (hunread : ∀ r, p.request = some r →
      shared.tryLockResult r.id = .locked → r ∈ shared.unread)
    (hr : piece.next.request = some r)
    (hlocked : ((program recursive).dataAfter piece shared).tryLockResult r.id = .locked) :
    r ∈ ((program recursive).dataAfter piece shared).unread := by
  cases hmoves <;> cases hr
  case create =>
    have hbusy : (shared.create r).tryLockResult r.id = .busy := by
      show Function.update shared.tryLockResult r.id .busy r.id = .busy
      rw [Function.update_self]
    exact absurd (hlocked.symm.trans hbusy) nofun
  case add =>
    have hsame : (shared.add r).tryLockResult = shared.tryLockResult ∧
        (shared.add r).unread = shared.unread := by
      unfold Shared.add
      split <;> exact ⟨rfl, rfl⟩
    have hbefore := hunread r rfl
    rw [← hsame.1, ← hsame.2] at hbefore
    exact hbefore hlocked
  case enter => exact hunread r rfl hlocked
  case wait => exact hunread r rfl hlocked
  case woken => exact hunread r rfl hlocked

theorem grants_valid : Annotation.Valid (program recursive) places grants Usage where
  assertion := by
    intro t order p shared piece hbefore husage r hr hlocked
    exact (code_moves hbefore.code).unread_self hbefore.assertion.2 hr hlocked
  release _ _ _ _ := True.intro
  invariant := by
    intro t order p shared piece e hbefore husage heffect
    exact (code_moves hbefore.code).grants heffect hbefore.invariant.1 hbefore.assertion.1 husage
      hbefore.assertion.2 hbefore.invariant.2
  frame := by
    intro t order p shared piece e other place hbefore husage heffect hother hplace _ _ r hr
      hlocked
    obtain ⟨hclient, hmem⟩ := hplace.1.request hr
    exact (code_moves hbefore.code).unread heffect hbefore.invariant.1 hbefore.assertion.1 hmem
      (hclient ▸ hother.symm) (hplace.2 r hr) hlocked
  frame_resource _ _ _ _ _ _ _ := True.intro
  raise _ hcode _ _ hop hheld := absurd hheld ((code_moves hcode).not_held hop)

theorem grants_initial : grants.Holds initial where
  assertion t r hr := by
    cases t <;> cases hr
  resource _ _ := True.intro
  invariant :=
    { holders := rfl
      released := nofun
      answered := nofun
      targets := List.nodup_nil
      locked := fun _ => iff_of_false nofun List.not_mem_nil
      known := nofun
      grants := .refl _
      claimed := nofun }

/-- In every run a target is held for the request it has been granted to. -/
theorem grants_holds {state : QueueState}
    (hrun : Reaches (program recursive).step Allowed initial state) : grants.Holds state :=
  grants_valid.holds wellLocked (fun _ _ _ => Allowed.respects) locked_initial
    (fun _ => places_holds) grants_initial hrun

end ThreadPools.LockQueue
