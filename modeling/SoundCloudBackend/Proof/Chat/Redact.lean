import SoundCloudBackend.Proof.Chat.Store

/-!
# Deletes for everyone and edits

A post without a body should have no edit with one (`Wiped`). The redaction takes the
bodies of the edits that it finds, and an edit looks at its post before its own
transaction, so both can miss the other. An observer notes this (`Watch`): that a delete
of its target was committed since an edit read it, and that an edit was committed since
a delete looked for the edits of its post. In runs in which no such edit and no such
delete is committed, every state is wiped.
-/

namespace SC.Proof.Chat.Store

open Impl.Chat.Store
open Impl.Chat.Groups (MessageClass)
open List Option Function

variable {c : Conversation} {row : Row} {seqs : List Int} {w w' : World} {a : Action} {n : Nat}
variable {phase : Phase} {seq post : Int} {l : List Int}

/-! ## What an action does -/

/-- The row that a send carries from its insertion to its commit. -/
def carried : Phase → Option Row
  | .insert _ row | .attach _ row | .commit _ row => some row
  | .refused _ | .target | .advance _ | .duplicate | .stale | .rotate | .publish _ | .done _ => none

/-- The send has read its target and not ended its transaction. -/
def underway : Phase → Bool
  | .advance _ | .insert _ _ | .attach _ _ | .commit _ _ => true
  | .refused _ | .target | .duplicate | .stale | .rotate | .publish _ | .done _ => false

/-- The rows that a delete has found, until it ends. -/
def looked : DeletePhase → Option (List Int)
  | .lock found _ => some found
  | .tell seqs _ | .drop seqs _ _ | .commit seqs _ _ => some seqs
  | .read | .redact _ | .done => none

/-- The rows that `redact.sql` matches. -/
def matched (w : World) (seq : Int) : List Int := (w.messages.filter (redacts seq)).map Row.seq

/-- The rows after an action: they are as before, or a transaction committed. -/
inductive Committed (w : World) : Action → List Row → Prop
  | same (a : Action) : Committed w a w.messages
  | send {n : Nat} {outcome : Outcome} {s : Send} {c : Conversation} {row : Row} (hs : w.sends n = some s)
      (hphase : s.phase = .commit c row) (ho : outcome.applies = true) :
      Committed w (.commit n outcome) (w.messages ++ [row])
  | delete {n : Nat} {outcome : Outcome} {d : Delete} {seqs : List Int} {c : Conversation} {row : Row}
      (hd : w.deletes n = some d) (hphase : d.phase = .commit seqs c row) (ho : outcome.applies = true) :
      Committed w (.commitDelete n outcome) (blank seqs w.messages ++ [row])
  | system {n : Nat} {outcome : Outcome} {c : Conversation} {rows : List Row} (hs : w.systems n = some (c, rows)) :
      Committed w (.commitSystem n outcome) (w.messages ++ rows)

/-- A send goes on: its row is the one that it carried, or a new one of what it sends, and it is under way as before, or
because it has read its target. -/
structure Goes (w w' : World) (s s' : Send) : Prop where
  access : s'.access = s.access
  out : s'.out = s.out
  row : ∀ row, carried s'.phase = some row →
    carried s.phase = some row ∨ (row.messageClass = s.out.messageClass ∧ row.targetSeq = s.out.targetSeq)
  read : underway s'.phase = true → underway s.phase = true ∨ (w'.messages = w.messages ∧ ∃ inherited,
    inheritedExpiry s.out.messageClass s.access.userId (visibleTarget w.messages s.access s.out.targetSeq) w.clock =
      .ok inherited)

/-- A delete goes on with the rows that it had found, or with those that `redact.sql` matches now. -/
structure Searches (w w' : World) (d d' : Delete) : Prop where
  seq : d'.seq = d.seq
  found : ∀ l, looked d'.phase = some l → looked d.phase = some l ∨ (w'.messages = w.messages ∧
    ((∃ expiresAt, d.phase = .redact expiresAt) ∧ l = matched w d.seq ∨
      ∃ found, looked d.phase = some found ∧ l = (matched w d.seq).filter (· ∈ found)))

/-- What an action does to the rows, to the sends and to the deletes. -/
structure Does (w : World) (a : Action) (w' : World) : Prop where
  rows : Committed w a w'.messages
  sends : ∀ n s', w'.sends n = some s' →
    (∃ refused, a = .send n s'.access s'.device s'.out refused ∧ carried s'.phase = none ∧ underway s'.phase = false) ∨
      ∃ s, w.sends n = some s ∧ Goes w w' s s'
  deletes : ∀ n d', w'.deletes n = some d' → looked d'.phase = none ∨ ∃ d, w.deletes n = some d ∧ Searches w w' d d'

section Does

variable {s : Send} {d : Delete} {outcome : Outcome}

theorem Goes.refl (w w' : World) (s : Send) : Goes w w' s s := ⟨rfl, rfl, fun _ h => .inl h, fun h => .inl h⟩

theorem Searches.refl (w w' : World) (d : Delete) : Searches w w' d d := ⟨rfl, fun _ h => .inl h⟩

theorem Does.of_sends (hrows : Committed w a w'.messages) (hd : w'.deletes = w.deletes)
    (hsends : ∀ n s', w'.sends n = some s' → (∃ refused, a = .send n s'.access s'.device s'.out refused ∧
      carried s'.phase = none ∧ underway s'.phase = false) ∨ ∃ s, w.sends n = some s ∧ Goes w w' s s') : Does w a w' :=
  ⟨hrows, hsends, fun _ d' h => .inr ⟨d', hd ▸ h, .refl w w' d'⟩⟩

theorem Does.still (hrows : Committed w a w'.messages) (hs : w'.sends = w.sends) (hd : w'.deletes = w.deletes) :
    Does w a w' :=
  .of_sends hrows hd fun _ s' h => .inr ⟨s', hs ▸ h, .refl w w' s'⟩

theorem Does.of_send (hrows : Committed w a w'.messages) (hs : w.sends n = some s)
    (hw : w'.sends = update w.sends n (some { s with phase := phase })) (hd : w'.deletes = w.deletes)
    (hgoes : Goes w w' s { s with phase := phase }) : Does w a w' := by
  refine .of_sends hrows hd fun m s' h => .inr ?_
  rw [hw] at h
  by_cases hm : m = n
  · subst hm
    rw [update_self] at h
    cases h
    exact ⟨s, hs, hgoes⟩
  · rw [update_of_ne hm] at h
    exact ⟨s', h, .refl w w' s'⟩

theorem Goes.bare (hc : carried phase = none) (hu : underway phase = false) :
    Goes w w' s { s with phase := phase } where
  access := rfl
  out := rfl
  row _ h := nomatch hc.symm.trans h
  read h := nomatch hu.symm.trans h

theorem Goes.same (hc : carried phase = carried s.phase) (hu : underway s.phase = true) :
    Goes w w' s { s with phase := phase } :=
  ⟨rfl, rfl, fun _ h => .inl (hc.symm.trans h), fun _ => .inl hu⟩

theorem Does.of_delete {phase : DeletePhase} (hrows : Committed w a w'.messages) (hd : w.deletes n = some d)
    (hw : w'.deletes = update w.deletes n (some { d with phase := phase })) (hs : w'.sends = w.sends)
    (hphase : ∀ l, looked phase = some l → Searches w w' d { d with phase := phase }) : Does w a w' := by
  refine ⟨hrows, fun m s' h => .inr ⟨s', hs ▸ h, .refl w w' s'⟩, fun m d' h => ?_⟩
  rw [hw] at h
  by_cases hm : m = n
  · subst hm
    rw [update_self] at h
    cases h
    cases hl : looked phase with
    | none => exact .inl rfl
    | some l => exact .inr ⟨d, hd, hphase l hl⟩
  · rw [update_of_ne hm] at h
    exact .inr ⟨d', h, .refl w w' d'⟩

theorem Does.of_ended {phase : DeletePhase} (hrows : Committed w a w'.messages) (hd : w.deletes n = some d)
    (hw : w'.deletes = update w.deletes n (some { d with phase := phase })) (hs : w'.sends = w.sends)
    (hphase : looked phase = none) : Does w a w' :=
  .of_delete hrows hd hw hs fun _ hl => nomatch hphase.symm.trans hl

theorem Searches.same {phase : DeletePhase} (hl : looked phase = looked d.phase) :
    Searches w w' d { d with phase := phase } :=
  ⟨rfl, fun _ h => .inl (hl.symm.trans h)⟩

/-- A send that looks for the row of its client id carries nothing. -/
theorem goes_afterExisting {found : Row → Phase} {otherwise : Phase}
    (hfound : ∀ row, carried (found row) = none ∧ underway (found row) = false)
    (hotherwise : carried otherwise = none ∧ underway otherwise = false) :
    Goes w w' s { s with phase := (w.afterExisting s found).getD otherwise } := by
  unfold World.afterExisting
  split
  · exact .bare rfl rfl
  · rename_i row _
    cases row with
    | none => exact .bare hotherwise.1 hotherwise.2
    | some row => exact .bare (hfound row).1 (hfound row).2

theorem work_does (hs : w.sends n = some s) (h : w.work n s = some w') : Does w (.work n) w' := by
  have go {phase : Phase} {w' : World} (hm : w'.messages = w.messages)
      (hw : w'.sends = update w.sends n (some { s with phase := phase })) (hd : w'.deletes = w.deletes)
      (hgoes : Goes w w' s { s with phase := phase }) : Does w (.work n) w' :=
    .of_send (hm ▸ .same _) hs hw hd hgoes
  unfold World.work at h
  split at h
  · cases h
    exact go rfl rfl rfl (goes_afterExisting (fun _ => ⟨rfl, rfl⟩) ⟨rfl, rfl⟩)
  · cases h
    exact go rfl rfl rfl (goes_afterExisting (fun _ => ⟨rfl, rfl⟩) ⟨rfl, rfl⟩)
  · split at h
    · cases h
      exact go rfl rfl rfl (.bare rfl rfl)
    · rename_i inherited hread
      cases h
      exact go rfl rfl rfl ⟨rfl, rfl, nofun, fun _ => .inr ⟨rfl, inherited, hread⟩⟩
  · rename_i inherited hphase
    split_ifs at h
    split at h
    · cases h
      exact go rfl rfl rfl (.bare rfl rfl)
    · cases h
      refine go rfl rfl rfl ⟨rfl, rfl, fun row hrow => .inr ?_, fun _ => .inl (by rw [hphase]; rfl)⟩
      cases hrow
      exact ⟨rfl, rfl⟩
  · rename_i c row hphase
    split at h
    · cases h
      exact go rfl rfl rfl (.same (by rw [hphase]; rfl) (by rw [hphase]; rfl))
    · cases h
      exact go rfl rfl rfl (.bare rfl rfl)
  · cases h
    exact go rfl rfl rfl (goes_afterExisting (fun _ => ⟨rfl, rfl⟩) ⟨rfl, rfl⟩)
  · cases h
    exact go rfl rfl rfl (goes_afterExisting (fun _ => ⟨rfl, rfl⟩) ⟨rfl, rfl⟩)
  · split_ifs at h
    split at h <;> cases h <;> exact go rfl rfl rfl (.bare rfl rfl)
  all_goals cases h

theorem workDelete_does {notice : Impl.Replication.Uuid × Body} (hd : w.deletes n = some d)
    (h : w.workDelete n d notice = some w') : Does w (.workDelete n notice) w' := by
  have ended : Does w (.workDelete n notice) (w.endDelete n d) := .of_ended (.same _) hd rfl rfl rfl
  unfold World.workDelete at h
  split at h
  · split at h
    · cases h
      exact ended
    · split at h
      · cases h
        exact ended
      · split at h
        · cases h
          exact ended
        · cases h
          exact .of_ended (.same _) hd rfl rfl rfl
  · rename_i expiresAt hphase
    cases h
    refine .of_delete (.same _) hd rfl rfl fun _ _ => ⟨rfl, fun l hl => .inr ⟨rfl, .inl ⟨⟨expiresAt, hphase⟩, ?_⟩⟩⟩
    exact (some.inj hl).symm
  · rename_i found expiresAt hphase
    split_ifs at h
    dsimp only at h
    split at h
    · cases h
      exact ended
    · cases h
      refine .of_delete (.same _) hd rfl rfl fun _ _ => ⟨rfl, fun l hl => .inr ⟨rfl, .inr ⟨found, ?_, ?_⟩⟩⟩
      · rw [hphase]
        rfl
      · exact (some.inj hl).symm
  · rename_i seqs expiresAt hphase
    split_ifs at h
    split at h
    · cases h
      exact ended
    · dsimp only at h
      split at h
      · cases h
        exact .of_delete (.same _) hd rfl rfl fun _ _ => .same (by rw [hphase]; rfl)
      · cases h
        exact ended
  all_goals cases h

theorem commit_messages (hs : w.sends n = some s) (hphase : s.phase = .commit c row)
    (h : step w (.commit n outcome) = some w') :
    w'.messages = if outcome.applies then w.messages ++ [row] else w.messages := by
  simp only [step, hs, bind_some, hphase, some.injEq] at h
  subst h
  cases outcome with
  | done => rfl
  | lost applied => cases applied <;> rfl

theorem step_does (h : step w a = some w') : Does w a w' := by
  cases a with
  | send n access device out refused =>
    rw [step] at h
    split at h <;> cases h
    refine .of_sends (.same _) rfl fun m s' hs' => ?_
    by_cases hm : m = n
    · subst hm
      cases (update_self m _ w.sends).symm.trans hs'
      exact .inl ⟨refused, rfl, by cases refused <;> exact ⟨rfl, rfl⟩⟩
    · exact .inr ⟨s', (update_of_ne hm _ w.sends).symm.trans hs', .refl _ _ _⟩
  | work n =>
    obtain ⟨s, hs, h⟩ := bind_eq_some_iff.1 h
    exact work_does hs h
  | attach n error =>
    obtain ⟨s, hs, h⟩ := bind_eq_some_iff.1 h
    split at h
    · rename_i c row hphase
      cases h
      cases error with
      | none => exact .of_send (.same _) hs rfl rfl (.same (by rw [hphase]; rfl) (by rw [hphase]; rfl))
      | some error => exact .of_send (.same _) hs rfl rfl (.bare rfl rfl)
    · cases h
  | commit n outcome =>
    obtain ⟨s, hs, hdone⟩ := bind_eq_some_iff.1 h
    split at hdone
    · rename_i c row hphase
      have hrows : Committed w (.commit n outcome) w'.messages := by
        rw [commit_messages hs hphase h]
        split
        · rename_i ho
          exact .send hs hphase ho
        · exact .same _
      cases hdone
      cases outcome with
      | done => exact .of_send hrows hs rfl rfl (.bare rfl rfl)
      | lost applied => cases applied <;> exact .of_send hrows hs rfl rfl (.bare rfl rfl)
    · cases hdone
  | publish n published | lose n =>
    obtain ⟨s, hs, h⟩ := bind_eq_some_iff.1 h
    split at h <;> cases h
    exact .of_send (.same _) hs rfl rfl (.bare rfl rfl)
  | delete n access seq =>
    rw [step] at h
    split at h <;> cases h
    refine ⟨.same _, fun _ s' hs' => .inr ⟨s', hs', .refl _ _ _⟩, fun m d' hd' => ?_⟩
    by_cases hm : m = n
    · subst hm
      cases (update_self m _ w.deletes).symm.trans hd'
      exact .inl rfl
    · exact .inr ⟨d', (update_of_ne hm _ w.deletes).symm.trans hd', .refl _ _ _⟩
  | workDelete n notice =>
    obtain ⟨d, hd, h⟩ := bind_eq_some_iff.1 h
    exact workDelete_does hd h
  | drop n dropped =>
    obtain ⟨d, hd, h⟩ := bind_eq_some_iff.1 h
    split at h
    · rename_i seqs c row hphase
      cases h
      cases dropped with
      | true => exact .of_delete (.same _) hd rfl rfl fun _ _ => .same (by rw [hphase]; rfl)
      | false => exact .of_ended (.same _) hd rfl rfl rfl
    · cases h
  | commitDelete n outcome =>
    obtain ⟨d, hd, h⟩ := bind_eq_some_iff.1 h
    split at h
    · rename_i seqs c row hphase
      cases h
      cases ho : outcome.applies with
      | true => exact .of_ended (.delete hd hphase ho) hd rfl rfl rfl
      | false => exact .of_ended (.same _) hd rfl rfl rfl
    · cases h
  | loseDelete n =>
    obtain ⟨d, hd, rfl⟩ := map_eq_some_iff.1 h
    exact .of_ended (.same _) hd rfl rfl rfl
  | systemRow n notice =>
    simp only [step, World.systemRow] at h
    split_ifs at h
    split at h
    · cases h
    split at h <;> cases h
    exact .still (.same _) rfl rfl
  | commitSystem n outcome =>
    rw [step] at h
    split at h
    · obtain ⟨⟨c, rows⟩, hs, rfl⟩ := map_eq_some_iff.1 h
      cases ho : outcome.applies with
      | true => exact .still (.system hs) rfl rfl
      | false => exact .still (.same _) rfl rfl
    · cases h
  | rollbackSystem n | rotateIfDue epoch | markRekey | setTtl ttlS | shred =>
    rw [step] at h
    split at h <;> cases h
    exact .still (.same _) rfl rfl
  | tick ms =>
    cases h
    exact .still (.same _) rfl rfl

end Does

/-! ## Posts and their edits -/

def Edits (edit post : Row) : Prop :=
  post.messageClass = .post ∧ edit.messageClass = .edit ∧ edit.targetSeq = some post.seq

instance (edit post : Row) : Decidable (Edits edit post) := inferInstanceAs (Decidable (_ ∧ _ ∧ _))

def Wiped (w : World) : Prop :=
  ∀ post ∈ w.messages, post.body = none → ∀ edit ∈ w.messages, Edits edit post → edit.body = none

instance (w : World) : Decidable (Wiped w) :=
  inferInstanceAs (Decidable (∀ post ∈ w.messages, post.body = none → ∀ edit ∈ w.messages, Edits edit post →
    edit.body = none))

/-! ## The observer -/

/-- What an observer has seen: the sends whose target a committed delete has redacted since they read it (`cut`), and the
deletes whose post a committed edit has changed since they looked for its edits (`missed`). -/
structure Watch where
  cut : Nat → Bool
  missed : Nat → Bool

/-- The post that the commit of a send edits, if it is applied and the send is an edit. -/
def editedBy (w : World) (n : Nat) (outcome : Outcome) : Option Int :=
  (w.sends n).bind fun s => if outcome.applies ∧ s.out.messageClass = .edit then s.out.targetSeq else none

/-- The post that the commit of a delete redacts, if it is applied. -/
def redactedBy (w : World) (n : Nat) (outcome : Outcome) : Option Int :=
  (w.deletes n).bind fun d => if outcome.applies then some d.seq else none

def watch (w : World) (seen : Watch) : Action → Watch
  | .work n =>
    if (w.sends n).map Send.phase = some .target then { seen with cut := update seen.cut n false } else seen
  | .workDelete n _ =>
    match (w.deletes n).map Delete.phase with
    | some (.redact _) => { seen with missed := update seen.missed n false }
    | _ => seen
  | .commit n outcome =>
    { seen with
      missed := fun m => seen.missed m || (editedBy w n outcome).any fun seq => (w.deletes m).any fun d => d.seq = seq }
  | .commitDelete n outcome =>
    { seen with
      cut := fun m => seen.cut m ||
        (redactedBy w n outcome).any fun seq => (w.sends m).any fun s => s.out.targetSeq = some seq }
  | _ => seen

/-- The commit of an edit finds no delete of its target committed since it read it, and the commit of a delete no edit of
its post committed since it looked for them. -/
def Undisturbed (s : World × Watch) : Action → Prop
  | .commit n outcome => (editedBy s.1 n outcome).isSome → s.2.cut n = false
  | .commitDelete n outcome => (redactedBy s.1 n outcome).isSome → s.2.missed n = false
  | _ => True

instance (s : World × Watch) : DecidablePred (Undisturbed s) := fun a => by
  unfold Undisturbed
  split <;> infer_instance

def Watch.start : Watch := ⟨fun _ => false, fun _ => false⟩

/-! ## Rows and numbers -/

theorem mem_blank {messages : List Row} :
    row ∈ blank seqs messages ↔ (row ∈ messages ∧ row.seq ∉ seqs) ∨ ∃ old ∈ messages, old.seq ∈ seqs ∧ row = key old := by
  rw [blank, List.mem_map]
  constructor
  · rintro ⟨old, hold, rfl⟩
    split
    · rename_i hseq
      exact .inr ⟨old, hold, hseq, rfl⟩
    · rename_i hseq
      exact .inl ⟨hold, hseq⟩
  · rintro (⟨hrow, hseq⟩ | ⟨old, hold, hseq, rfl⟩)
    · exact ⟨row, hrow, if_neg hseq⟩
    · exact ⟨old, hold, if_pos hseq⟩

theorem wiped_append_system {rows : List Row} (h : Wiped w)
    (hsystem : ∀ row ∈ rows, row.messageClass = .system) (hm : w'.messages = w.messages ++ rows) : Wiped w' := by
  intro post hpost hbody edit hedit he
  rw [hm] at hpost hedit
  obtain hpost | hpost := mem_append.1 hpost
  · obtain hedit | hedit := mem_append.1 hedit
    · exact h post hpost hbody edit hedit he
    · exact nomatch (hsystem edit hedit).symm.trans he.2.1
  · exact nomatch (hsystem post hpost).symm.trans he.1

theorem wiped_append_row (h : Wiped w) (hbody : row.body ≠ none)
    (hok : ∀ post ∈ w.messages, Edits row post → post.body ≠ none) (hm : w'.messages = w.messages ++ [row]) :
    Wiped w' := by
  intro post hpost hnone edit hedit he
  rw [hm] at hpost hedit
  obtain hpost | hpost := mem_append.1 hpost
  · obtain hedit | hedit := mem_append.1 hedit
    · exact h post hpost hnone edit hedit he
    · cases mem_singleton.1 hedit
      exact absurd hnone (hok post hpost he)
  · cases mem_singleton.1 hpost
    exact absurd hnone hbody

theorem wiped_blank (h : Wiped w)
    (hok : ∀ post ∈ w.messages, post.seq ∈ seqs → ∀ edit ∈ w.messages, Edits edit post → edit.body ≠ none →
    edit.seq ∈ seqs) : Wiped { w with messages := blank seqs w.messages } := by
  intro post hpost hnone edit hedit he
  obtain ⟨hedit, heditSeq⟩ | ⟨old, -, -, rfl⟩ := mem_blank.1 hedit
  · by_contra hbody
    obtain ⟨hpost, -⟩ | ⟨old, hold, hseq, rfl⟩ := mem_blank.1 hpost
    · exact hbody (h post hpost hnone edit hedit he)
    · exact heditSeq (hok old hold hseq edit hedit he hbody)
  · rfl

theorem Numbered.seq_unique (h : Numbered w) {other : Row} (hrow : row ∈ w.messages) (hother : other ∈ w.messages)
    (heq : row.seq = other.seq) : row = other := by
  refine inj_on_of_nodup_map (f := Row.seq) ?_ hrow hother heq
  rw [h.seqs, numbers]
  exact nodup_range.map fun i j (hij : (0 : Int) + i + 1 = 0 + j + 1) => by omega

theorem Numbered.seq_le (h : Numbered w) (hrow : row ∈ w.messages) : row.seq ≤ w.messages.length := by
  have hmem : row.seq ∈ w.messages.map Row.seq := mem_map_of_mem hrow
  rw [h.seqs, numbers] at hmem
  obtain ⟨i, hi, hseq⟩ := mem_map.1 hmem
  have := mem_range.1 hi
  omega

/-- An edit that may go on has found its post with a body. -/
theorem target_alive (hn : Numbered w) {user : String} {access : Access} {targetSeq inherited : Option Int}
    (h : inheritedExpiry .edit user (visibleTarget w.messages access targetSeq) w.clock = .ok inherited)
    (hseq : targetSeq = some seq) :
    seq ≤ w.messages.length ∧ ∀ post ∈ w.messages, post.seq = seq → post.body ≠ none := by
  subst hseq
  simp only [visibleTarget] at h
  split at h
  · cases hfind : w.messages.find? fun row => row.seq = seq with
    | none => simp [target, hfind, inheritedExpiry, needsTarget] at h
    | some found =>
      have hmem := mem_of_find?_eq_some hfind
      have hfound : found.seq = seq := by simpa using List.find?_some hfind
      refine ⟨hfound ▸ hn.seq_le hmem, fun post hpost hpseq hnone => ?_⟩
      obtain rfl := hn.seq_unique hpost hmem (hpseq.trans hfound.symm)
      simp [target, hfind, inheritedExpiry, needsTarget, hnone] at h
      split_ifs at h
  · simp [inheritedExpiry, needsTarget] at h

/-! ## What the observer knows -/

/-- A send under way that edits a post: the post is there, with its body unless the send is cut. -/
def SendKept (w : World) (cut : Bool) (s : Send) : Prop :=
  (∀ row, carried s.phase = some row → row.messageClass = s.out.messageClass ∧ row.targetSeq = s.out.targetSeq) ∧
  (underway s.phase = true → s.out.messageClass = .edit → ∀ seq, s.out.targetSeq = some seq → seq ≤ w.messages.length ∧
    (cut = false → ∀ post ∈ w.messages, post.messageClass = .post → post.seq = seq → post.body ≠ none))

/-- A delete that has looked: what it found is its post and edits, and all edits with a body unless it missed one. -/
def DeleteKept (w : World) (missed : Bool) (d : Delete) (l : List Int) : Prop :=
  (∀ seq ∈ l, ∃ row ∈ w.messages, row.seq = seq ∧ (seq = d.seq ∨ row.messageClass = .edit)) ∧
  (missed = false → ∀ edit ∈ w.messages, edit.messageClass = .edit → edit.targetSeq = some d.seq → edit.body ≠ none →
    edit.seq ∈ l)

/-- What holds in every state of an undisturbed run. -/
structure Kept (s : World × Watch) : Prop where
  inv : Inv s.1
  wiped : Wiped s.1
  forward : ∀ edit ∈ s.1.messages, edit.messageClass = .edit → ∀ seq, edit.targetSeq = some seq → seq ≤ edit.seq
  sends : ∀ n send, s.1.sends n = some send → SendKept s.1 (s.2.cut n) send
  deletes : ∀ n d l, s.1.deletes n = some d → looked d.phase = some l → DeleteKept s.1 (s.2.missed n) d l

section Kept

variable {seen : Watch}

/-- The rows that an action brings: those of a send have a body and are what it sends, the others are system rows. -/
theorem Kept.new_row (h : Kept (w, seen)) (hc : Committed w a w'.messages) (hrow : row ∈ w'.messages) :
    (∃ old ∈ w.messages, row = old ∨ row = key old) ∨ row.messageClass = .system ∨
      ∃ n outcome s, a = .commit n outcome ∧ outcome.applies = true ∧ w.sends n = some s ∧ row.body ≠ none ∧
        row.messageClass = s.out.messageClass ∧ row.targetSeq = s.out.targetSeq ∧ row.seq = w.messages.length + 1 ∧
        underway s.phase = true := by
  generalize w'.messages = messages at hc hrow
  cases hc with
  | same => exact .inl ⟨row, hrow, .inl rfl⟩
  | @send n outcome s c new hs hphase ho =>
    obtain hrow | hrow := mem_append.1 hrow
    · exact .inl ⟨row, hrow, .inl rfl⟩
    · cases mem_singleton.1 hrow
      have hp := h.inv.sendOk hs
      rw [SendOk, hphase] at hp
      obtain ⟨hclass, htarget⟩ := (h.sends n s hs).1 row (by rw [hphase]; rfl)
      have hseq := hp.1.seqs
      rw [h.inv.numbered.lastSeq, length_singleton, numbers_one, map_singleton] at hseq
      exact .inr (.inr ⟨n, outcome, s, rfl, ho, hs, hp.1.written row (mem_singleton_self row), hclass, htarget,
        (List.cons.inj hseq).1, by rw [hphase]; rfl⟩)
  | @delete n outcome d seqs c new hd hphase ho =>
    obtain hrow | hrow := mem_append.1 hrow
    · obtain ⟨hrow, -⟩ | ⟨old, hold, -, rfl⟩ := mem_blank.1 hrow
      · exact .inl ⟨row, hrow, .inl rfl⟩
      · exact .inl ⟨old, hold, .inr rfl⟩
    · have hp := h.inv.calls (.delete n) d hd
      rw [DeleteOk, hphase] at hp
      exact .inr (.inl (hp.written row hrow))
  | @system n outcome c rows hs =>
    obtain hrow | hrow := mem_append.1 hrow
    · exact .inl ⟨row, hrow, .inl rfl⟩
    · exact .inr (.inl ((h.inv.calls (.system n) c rows hs).written row hrow))

/-- No row goes away. -/
theorem Committed.keeps (hc : Committed w a w'.messages) (hrow : row ∈ w.messages) :
    row ∈ w'.messages ∨ key row ∈ w'.messages := by
  generalize w'.messages = messages at hc
  cases hc with
  | same => exact .inl hrow
  | send | system => exact .inl (mem_append_left _ hrow)
  | @delete n outcome d seqs =>
    by_cases hseq : row.seq ∈ seqs
    · exact .inr (mem_append_left _ (mem_blank.2 (.inr ⟨row, hrow, hseq, rfl⟩)))
    · exact .inl (mem_append_left _ (mem_blank.2 (.inl ⟨hrow, hseq⟩)))

theorem Committed.length_le (hc : Committed w a w'.messages) : w.messages.length ≤ w'.messages.length := by
  generalize w'.messages = messages at hc
  cases hc <;> simp

/-- Only a delete of the post takes its body. -/
theorem Kept.body_kept (h : Kept (w, seen)) (hc : Committed w a w'.messages) {post : Row} (hpost : post ∈ w.messages)
    (hclass : post.messageClass = .post) (hkey : key post ∈ w'.messages) (hbody : post.body ≠ none) :
    ∃ n outcome, a = .commitDelete n outcome ∧ redactedBy w n outcome = some post.seq := by
  have hnone : ∀ old ∈ w.messages, key post ≠ old := fun old hold heq =>
    hbody (by rw [h.inv.numbered.seq_unique hpost hold (by rw [← heq]; rfl), ← heq]; rfl)
  generalize w'.messages = messages at hc hkey
  cases hc with
  | same => exact absurd rfl (hnone _ hkey)
  | @send n outcome s c new hs hphase ho =>
    obtain hold | hnew := mem_append.1 hkey
    · exact absurd rfl (hnone _ hold)
    · have hp := h.inv.sendOk hs
      rw [SendOk, hphase] at hp
      exact absurd rfl (hp.1.written (key post) hnew)
  | @delete n outcome d seqs c new hd hphase ho =>
    refine ⟨n, outcome, rfl, ?_⟩
    obtain hold | hnew := mem_append.1 hkey
    · obtain ⟨hold, -⟩ | ⟨old, hold, hseq, heq⟩ := mem_blank.1 hold
      · exact absurd rfl (hnone _ hold)
      · obtain rfl : post = old := h.inv.numbered.seq_unique hpost hold (by simpa using congrArg Row.seq heq)
        obtain ⟨other, hother, heq, hd' | hedit⟩ := (h.deletes n d seqs hd (by rw [hphase]; rfl)).1 _ hseq
        · simp [redactedBy, hd, ho, hd']
        · rw [h.inv.numbered.seq_unique hother hold heq, hclass] at hedit
          cases hedit
    · have hp := h.inv.calls (.delete n) d hd
      rw [DeleteOk, hphase] at hp
      cases hclass.symm.trans (hp.written (key post) hnew)
  | @system n outcome c rows hs =>
    obtain hold | hnew := mem_append.1 hkey
    · exact absurd rfl (hnone _ hold)
    · cases hclass.symm.trans ((h.inv.calls (.system n) c rows hs).written (key post) hnew)

theorem watch_cut {s : Send} (hs : w.sends n = some s) (hu : underway s.phase = true)
    (h : (watch w seen a).cut n = false) : seen.cut n = false ∧
      ∀ m outcome seq, a = .commitDelete m outcome → redactedBy w m outcome = some seq → s.out.targetSeq ≠ some seq := by
  cases a with
  | work m =>
    refine ⟨?_, nofun⟩
    simp only [watch] at h
    split at h
    · rename_i hphase
      by_cases hn : n = m
      · subst hn
        rw [hs, map_some, some.injEq] at hphase
        rw [hphase] at hu
        cases hu
      · exact (update_of_ne hn _ _).symm.trans h
    · exact h
  | workDelete m notice =>
    refine ⟨?_, nofun⟩
    simp only [watch] at h
    split at h <;> exact h
  | commitDelete m outcome =>
    simp only [watch, Bool.or_eq_false_iff, hs] at h
    refine ⟨h.1, ?_⟩
    rintro _ _ seq ⟨⟩ hred htarget
    simp [hred, htarget] at h
  | _ => exact ⟨h, nofun⟩

theorem watch_missed {d : Delete} (hd : w.deletes n = some d) (hl : looked d.phase = some l)
    (h : (watch w seen a).missed n = false) :
    seen.missed n = false ∧ ∀ m outcome, a = .commit m outcome → editedBy w m outcome ≠ some d.seq := by
  cases a with
  | work m =>
    refine ⟨?_, nofun⟩
    simp only [watch] at h
    split at h <;> exact h
  | workDelete m notice =>
    refine ⟨?_, nofun⟩
    simp only [watch] at h
    split at h
    · rename_i hphase
      by_cases hn : n = m
      · subst hn
        rw [hd, map_some, some.injEq] at hphase
        rw [hphase] at hl
        cases hl
      · exact (update_of_ne hn _ _).symm.trans h
    · exact h
  | commit m outcome =>
    simp only [watch, Bool.or_eq_false_iff, hd] at h
    refine ⟨h.1, ?_⟩
    rintro _ _ ⟨⟩ hedit
    simp [hedit] at h
  | _ => exact ⟨h, nofun⟩

theorem Kept.send_step (h : Kept (w, seen)) (hdoes : Does w a w') {s' : Send} (hs' : w'.sends n = some s') :
    SendKept w' ((watch w seen a).cut n) s' := by
  rcases hdoes.sends n s' hs' with ⟨refused, -, hc, hu⟩ | ⟨s, hs, hgoes⟩
  · exact ⟨fun row hrow => (nomatch hc.symm.trans hrow), fun hu' => (nomatch hu.symm.trans hu')⟩
  · obtain ⟨hrows, htarget⟩ := h.sends n s hs
    rw [SendKept, hgoes.out]
    refine ⟨fun row hrow => (hgoes.row row hrow).elim (hrows row) id, fun hu hedit seq hseq => ?_⟩
    rcases hgoes.read hu with hu | ⟨hsame, inherited, hread⟩
    · obtain ⟨hle, halive⟩ := htarget hu hedit seq hseq
      refine ⟨hle.trans (Int.ofNat_le.2 hdoes.rows.length_le), fun hcut post hpost hclass hpseq hnone => ?_⟩
      obtain ⟨hcut, hother⟩ := watch_cut hs hu hcut
      rcases h.new_row hdoes.rows hpost with ⟨old, hold, rfl | rfl⟩ | hsystem | ⟨_, _, _, -, -, -, hbody, -⟩
      · exact halive hcut post hold hclass hpseq hnone
      · have hbody := halive hcut old hold hclass hpseq
        obtain ⟨m, outcome, rfl, hred⟩ := h.body_kept hdoes.rows hold hclass hpost hbody
        exact hother m outcome _ rfl hred (hseq.trans (congrArg some hpseq.symm))
      · cases hclass.symm.trans hsystem
      · exact hbody hnone
    · rw [hedit] at hread
      obtain ⟨hle, halive⟩ := target_alive h.inv.numbered hread hseq
      rw [hsame]
      exact ⟨hle, fun _ post hpost _ => halive post hpost⟩

theorem mem_matched : seq ∈ matched w post ↔ ∃ row ∈ w.messages, redacts post row = true ∧ row.seq = seq := by
  simp only [matched, List.mem_map, List.mem_filter, and_assoc]

theorem Kept.matched_sound (hseq : seq ∈ matched w post) :
    ∃ row ∈ w.messages, row.seq = seq ∧ (seq = post ∨ row.messageClass = .edit) := by
  obtain ⟨row, hrow, hred, rfl⟩ := mem_matched.1 hseq
  exact ⟨row, hrow, rfl, (of_decide_eq_true hred).2.1.imp_right And.right⟩

/-- `redact.sql` finds every edit of the post that has a body. -/
theorem Kept.matched_all (h : Kept (w, seen)) {edit : Row} (hedit : edit ∈ w.messages)
    (hclass : edit.messageClass = .edit) (htarget : edit.targetSeq = some post) (hbody : edit.body ≠ none) :
    edit.seq ∈ matched w post :=
  mem_matched.2 ⟨edit, hedit, decide_eq_true ⟨h.forward edit hedit hclass post htarget, .inr ⟨htarget, hclass⟩, hbody⟩, rfl⟩

theorem Kept.delete_step (h : Kept (w, seen)) (hdoes : Does w a w') {d' : Delete}
    (hd' : w'.deletes n = some d') (hl : looked d'.phase = some l) : DeleteKept w' ((watch w seen a).missed n) d' l := by
  rcases hdoes.deletes n d' hd' with hnone | ⟨d, hd, hsearch⟩
  · cases hnone.symm.trans hl
  rw [DeleteKept, hsearch.seq]
  rcases hsearch.found l hl with hold | ⟨hsame, ⟨-, rfl⟩ | ⟨found, hfound, rfl⟩⟩
  · obtain ⟨hsound, hall⟩ := h.deletes n d l hd hold
    refine ⟨fun seq hseq => ?_, fun hmissed edit hedit hclass htarget hbody => ?_⟩
    · obtain ⟨row, hrow, hrowseq⟩ := hsound seq hseq
      exact (hdoes.rows.keeps hrow).elim (fun hk => ⟨row, hk, hrowseq⟩) fun hk => ⟨key row, hk, hrowseq⟩
    · obtain ⟨hmissed, hother⟩ := watch_missed hd hold hmissed
      rcases h.new_row hdoes.rows hedit with ⟨old, hold, rfl | rfl⟩ | hsystem | ⟨m, outcome, s, rfl, ho, hs, -, hc, ht, -⟩
      · exact hall hmissed edit hold hclass htarget hbody
      · exact absurd rfl hbody
      · cases hclass.symm.trans hsystem
      · exact absurd (by simp [editedBy, hs, ho, ← hc, hclass, ← ht, htarget]) (hother m outcome rfl)
  · rw [hsame]
    exact ⟨fun seq => matched_sound, fun _ edit => h.matched_all⟩
  · obtain ⟨-, hall⟩ := h.deletes n d found hd hfound
    rw [hsame]
    refine ⟨fun seq hseq => matched_sound (mem_filter.1 hseq).1, fun hmissed edit hedit hclass htarget hbody => ?_⟩
    have hin := hall (watch_missed hd hfound hmissed).1 edit hedit hclass htarget hbody
    exact mem_filter.2 ⟨h.matched_all hedit hclass htarget hbody, decide_eq_true hin⟩

theorem Kept.wiped_step (h : Kept (w, seen)) (hok : Undisturbed (w, seen) a) (hc : Committed w a w'.messages) :
    Wiped w' := by
  generalize hm : w'.messages = messages at hc
  cases hc with
  | same => exact fun post hpost hnone edit hedit => h.wiped post (hm ▸ hpost) hnone edit (hm ▸ hedit)
  | @send n outcome s c row hs hphase ho =>
    have hp := h.inv.sendOk hs
    rw [SendOk, hphase] at hp
    obtain ⟨hrows, htarget⟩ := h.sends n s hs
    obtain ⟨hclass, hseq⟩ := hrows row (by rw [hphase]; rfl)
    refine wiped_append_row h.wiped (hp.1.written row (mem_singleton_self row)) (fun post hpost hedits => ?_) hm
    rw [Edits, hclass, hseq] at hedits
    have hcut : seen.cut n = false := hok (by simp [editedBy, hs, ho, hedits.2.1, hedits.2.2])
    exact (htarget (by rw [hphase]; rfl) hedits.2.1 _ hedits.2.2).2 hcut post hpost hedits.1 rfl
  | @delete n outcome d seqs c row hd hphase ho =>
    have hp := h.inv.calls (.delete n) d hd
    rw [DeleteOk, hphase] at hp
    obtain ⟨hsound, hall⟩ := h.deletes n d seqs hd (by rw [hphase]; rfl)
    have hmissed : seen.missed n = false := hok (by simp [redactedBy, hd, ho])
    refine wiped_append_system (wiped_blank h.wiped fun post hpost hseq edit hedit hedits hbody => ?_) hp.written hm
    -- the post that loses its body is the one of the delete, not one of its edits
    obtain ⟨other, hother, heq, hpostseq | hclass⟩ := hsound _ hseq
    · exact hall hmissed edit hedit hedits.2.1 (hedits.2.2.trans (congrArg some hpostseq)) hbody
    · rw [h.inv.numbered.seq_unique hother hpost heq, hedits.1] at hclass
      cases hclass
  | @system n outcome c rows hs =>
    exact wiped_append_system h.wiped (h.inv.calls (.system n) c rows hs).written hm

theorem Kept.step {s s' : World × Watch} (h : Kept s) (hok : Undisturbed s a)
    (hs : observed Impl.Chat.Store.step watch s a = some s') : Kept s' := by
  obtain ⟨w, seen⟩ := s
  obtain ⟨w', hw, rfl⟩ := map_eq_some_iff.1 hs
  have hdoes := step_does hw
  refine ⟨h.inv.step hw, h.wiped_step hok hdoes.rows, fun edit hedit hclass seq hseq => ?_,
    fun n s' hs' => h.send_step hdoes hs', fun n d' l hd' hl => h.delete_step hdoes hd' hl⟩
  rcases h.new_row hdoes.rows hedit with ⟨old, hold, rfl | rfl⟩ | hsystem |
    ⟨m, outcome, s, -, -, hs, -, hc, ht, hlast, hu⟩
  · exact h.forward edit hold hclass seq hseq
  · exact h.forward old hold hclass seq hseq
  · cases hclass.symm.trans hsystem
  · have := ((h.sends m s hs).2 hu (hc.symm.trans hclass) seq (ht.symm.trans hseq)).1
    rw [hlast]
    exact Int.le_trans this (Int.le_of_lt (Int.lt_succ _))

theorem Kept.start (c : Conversation) (clock : Int) : Kept (World.start c clock, .start) where
  inv := Inv.start c clock
  wiped _ hpost := nomatch hpost
  forward _ hedit := nomatch hedit
  sends _ s hs := nomatch (hs : (none : Option Send) = some s)
  deletes _ d _ hd := nomatch (hd : (none : Option Delete) = some d)

end Kept

/-- In every run in which no delete of its post is committed between an edit's read of the post and its commit, and no
edit of the post between a delete's `redact.sql` and its commit, a post without a body has no edit with one. -/
theorem redacted_post_has_no_text (c : Conversation) (clock : Int) {as : List Action} {w : World}
    (h : run step (World.start c clock) as = some w)
    (hok : Meets (observed step watch) Undisturbed (World.start c clock, .start) as) : Wiped w := by
  obtain ⟨seen, h⟩ := @run_observed _ _ step _ _ _ _ watch h .start
  exact (run_invariant_of_meets Kept.step (Kept.start c clock) hok h).wiped

theorem post_ne_system : MessageClass.post ≠ .system := by decide

theorem post_target : needsTarget .post = (none : Option Int).isSome := rfl

theorem edit_ne_system : MessageClass.edit ≠ .system := by decide

theorem edit_target : needsTarget .edit = (some (1 : Int)).isSome := rfl

def postAndEdit : List Action :=
  let access : Access := ⟨"101", .active, 0, false⟩
  [.send 0 access 7 ⟨5, .post, 1, none, [1], post_ne_system, post_target⟩ none, .work 0, .work 0, .work 0,
    .attach 0 none, .commit 0 .done, .publish 0 true,
    .send 1 access 7 ⟨6, .edit, 1, some 1, [2], edit_ne_system, edit_target⟩ none, .work 1]

def storeEdit : List Action := [.work 1, .work 1, .attach 1 none, .commit 1 .done, .publish 1 true]

def deletePost : List Action :=
  [.delete 0 ⟨"101", .active, 0, false⟩ 1, .workDelete 0 (8, [3]), .workDelete 0 (8, [3]), .workDelete 0 (8, [3]),
    .workDelete 0 (8, [3]), .drop 0 true, .commitDelete 0 .done]

/-- The edit is stored before the delete begins, and both are redacted. -/
theorem redacted_post_has_no_text_edited :
    ∃ w, run step (World.start group 1) (postAndEdit ++ storeEdit ++ deletePost) = some w ∧
      w.messages.map Row.body = [none, none, some [3]] ∧ Wiped w := by
  obtain ⟨w, hw, hbodies⟩ := map_eq_some_iff.1
    (show (run step (World.start group 1) (postAndEdit ++ storeEdit ++ deletePost)).map
      (fun w => w.messages.map Row.body) = some [none, none, some [3]] by decide)
  exact ⟨w, hw, hbodies, redacted_post_has_no_text group 1 hw (by decide)⟩

/-- The edit is stored after the delete: the post has no body, the edit has one, and no transaction runs. -/
theorem edit_outlives_redaction :
    ∃ w, run step (World.start group 1) (postAndEdit ++ deletePost ++ storeEdit) = some w ∧ ¬ Wiped w ∧
      w.messages.map Row.body = [none, some [3], some [2]] ∧ w.lock = none ∧
      (w.deletes 0).map Delete.phase = some .done := by
  obtain ⟨w, hw, hend⟩ := map_eq_some_iff.1
    (show (run step (World.start group 1) (postAndEdit ++ deletePost ++ storeEdit)).map
        (fun w => decide (¬ Wiped w ∧ w.messages.map Row.body = [none, some [3], some [2]] ∧ w.lock = none ∧
          (w.deletes 0).map Delete.phase = some .done)) = some true by decide)
  exact ⟨w, hw, of_decide_eq_true hend⟩

end SC.Proof.Chat.Store
