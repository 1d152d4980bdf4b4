import SoundCloudBackend.Framework.Run
import SoundCloudBackend.Impl.Streaming.Ticket

/-!
# A ticket verifies as what was issued

The byte layout is read back field by field (`parseTicket_plaintext`). An issued ticket is
the text of one sealing (`Backed`), and issues and sealings belong to each other in every
run (`Matched`); so a ring that holds the issuing key gives back what was issued, and no
ring accepts a text that was not issued.
-/

namespace SC.Proof.Streaming

open Impl.Streaming
open Impl.Replication (Uuid)

variable {t n : Nat} {x encoded : String} {call : IssueCall} {cipher cipher' : Cipher} {ticket : StreamTicket}
variable {i : Issued} {nonce : Vector UInt8 12} {w : World} {clock : Nat → Int}

/-! ## Text -/

theorem fromUtf8_asBytes (text : String) : fromUtf8 (asBytes text) = some text := by
  have hbytes : (⟨text.toUTF8.data⟩ : ByteArray) = text.toByteArray := rfl
  rw [fromUtf8, asBytes, Array.toArray_toList, hbytes, String.fromUTF8?, dif_pos text.isValidUTF8]
  rfl

theorem asBytes_inj {s t : String} (h : asBytes s = asBytes t) : s = t := by
  have := congrArg fromUtf8 h
  rwa [fromUtf8_asBytes, fromUtf8_asBytes, Option.some.injEq] at this

theorem asBytes_eq_nil {text : String} : asBytes text = [] ↔ text = "" := by
  constructor
  · intro h
    exact asBytes_inj h
  · rintro rfl
    rfl

theorem aad_inj {y : String} : aad x = aad y ↔ x = y :=
  ⟨fun h => asBytes_inj (List.append_cancel_left h), fun h => h ▸ rfl⟩

theorem utf8Size_urlSafeSymbol (h : n < 64) : (urlSafeSymbol n).utf8Size = 1 := by
  have hall : ∀ n : Fin 64, (urlSafeSymbol n).utf8Size = 1 := by decide +kernel
  exact hall ⟨n, h⟩

theorem utf8ByteSize_ofList_of_ascii {text : List Char} (h : ∀ c ∈ text, c.utf8Size = 1) :
    (String.ofList text).utf8ByteSize = text.length := by
  induction text with
  | nil => rfl
  | cons c rest ih =>
    have hrest : rest.utf8Encode.size = rest.length := ih fun c hc => h c (List.mem_cons_of_mem _ hc)
    have hsize : (String.ofList (c :: rest)).utf8ByteSize = (c :: rest).utf8Encode.size := rfl
    rw [hsize, List.utf8Encode_cons, ByteArray.size_append, List.utf8Encode_singleton, List.size_toByteArray,
      String.length_utf8EncodeChar, h c List.mem_cons_self, hrest, List.length_cons, Nat.add_comm]

theorem utf8ByteSize_encode (bytes : List UInt8) :
    (String.ofList (urlSafeNoPad.encode bytes)).utf8ByteSize = (4 * bytes.length + 2) / 3 := by
  rw [utf8ByteSize_ofList_of_ascii, Alphabet.length_encode]
  intro c hc
  obtain ⟨n, hn, rfl⟩ := urlSafeNoPad.exists_of_mem_encode hc
  exact utf8Size_urlSafeSymbol hn

/-! ## The layout -/

theorem length_plaintext (sessionId : Uuid) (highQuality : Bool) (expiresAt : Nat) (secret : List UInt8) :
    (plaintext sessionId highQuality expiresAt secret).length = headerLen + secret.length := by
  simp [plaintext, headerLen]
  omega

theorem take_drop_field {α : Type} {before field after : List α} {m : Nat} (hm : before.length = m)
    (hn : field.length = n) : ((before ++ (field ++ after)).drop m).take n = field := by
  subst hm hn
  rw [List.drop_left, List.take_left]

section Fields

variable (sessionId : Uuid) (highQuality : Bool) (expiresAt : Nat) (secret : List UInt8)

theorem plaintext_expiresAt :
    ((plaintext sessionId highQuality expiresAt secret).drop 2).take 8 = beBytes 8 expiresAt := by
  simp only [plaintext, List.append_assoc]
  exact take_drop_field rfl (length_beBytes _ _)

theorem plaintext_sessionId :
    ((plaintext sessionId highQuality expiresAt secret).drop 10).take 16 = beBytes 16 sessionId.toNat := by
  rw [plaintext, List.append_assoc, List.append_assoc]
  exact take_drop_field (by simp) (length_beBytes _ _)

theorem plaintext_secretLen :
    ((plaintext sessionId highQuality expiresAt secret).drop 26).take 2 = beBytes 2 secret.length := by
  rw [plaintext, List.append_assoc]
  exact take_drop_field (by simp) (length_beBytes _ _)

theorem plaintext_secret : (plaintext sessionId highQuality expiresAt secret).drop headerLen = secret := by
  have hlen : ([version, highQuality.toNat.toUInt8 * highQualityFlag] ++ beBytes 8 expiresAt ++
      beBytes 16 sessionId.toNat ++ beBytes 2 secret.length).length = headerLen := by simp [headerLen]
  rw [plaintext, ← hlen, List.drop_left]

end Fields

/-- What a ticket grants: an empty secret is none. -/
def granted (call : IssueCall) : StreamTicket :=
  ⟨call.sessionId, call.secretToken.filter fun token => token ≠ "", call.highQuality⟩

def expiresAt (call : IssueCall) : Nat := call.now.toNat / second + min call.ttl maxLifetime / second

def plaintextOf (call : IssueCall) : List UInt8 :=
  plaintext call.sessionId call.highQuality (expiresAt call) (asBytes (call.secretToken.getD ""))

theorem parseTicket_plaintext (hexpires : expiresAt call < 2 ^ 64)
    (hsecret : (asBytes (call.secretToken.getD "")).length ≤ maxSecretLen) (now : Nat) :
    parseTicket (plaintextOf call) now =
      if now < expiresAt call ∧ expiresAt call - now ≤ 300 then .ok (granted call) else .error .expired := by
  have hflags : ∀ b : Bool, b.toNat.toUInt8 * highQualityFlag &&& ~~~highQualityFlag = 0 ∧
      decide (b.toNat.toUInt8 * highQualityFlag &&& highQualityFlag ≠ 0) = b := by decide
  have hlength := length_plaintext call.sessionId call.highQuality (expiresAt call) (asBytes (call.secretToken.getD ""))
  have hexpiry : ofBeBytes (beBytes 8 (expiresAt call)) = expiresAt call := ofBeBytes_beBytes hexpires
  have hsession : BitVec.ofNat 128 (ofBeBytes (beBytes 16 call.sessionId.toNat)) = call.sessionId := by
    rw [ofBeBytes_beBytes call.sessionId.isLt, BitVec.ofNat_toNat, BitVec.setWidth_eq]
  have hlen : ofBeBytes (beBytes 2 (asBytes (call.secretToken.getD "")).length) =
      (asBytes (call.secretToken.getD "")).length :=
    ofBeBytes_beBytes (Nat.lt_of_le_of_lt hsecret (by decide))
  have hversion : (plaintextOf call).getD 0 0 = version := rfl
  have hflag : (plaintextOf call).getD 1 0 = call.highQuality.toNat.toUInt8 * highQualityFlag := rfl
  have hlife : maxLifetime / second = 300 := by decide
  unfold parseTicket
  rw [if_neg (by rw [hversion]; rw [plaintextOf, hlength]; simp)]
  simp only [hflag, (hflags call.highQuality).1, (hflags call.highQuality).2]
  simp only [plaintextOf, plaintext_expiresAt, plaintext_sessionId, plaintext_secretLen, plaintext_secret, hexpiry,
    hsession, hlen, hlife, hsecret, ne_eq, not_true_eq_false, and_self, if_false]
  by_cases hlive : now < expiresAt call ∧ expiresAt call - now ≤ 300
  · rw [if_neg (by omega), if_pos hlive, granted]
    cases htoken : call.secretToken with
    | none => rfl
    | some token =>
      by_cases hempty : token = ""
      · subst hempty
        rfl
      · have hne : asBytes token ≠ [] := fun h => hempty (asBytes_eq_nil.1 h)
        simp [hne, fromUtf8_asBytes, Option.filter, hempty]
  · rw [if_pos (by omega), if_neg hlive]

/-! ## Issuing -/

def sealedOf (call : IssueCall) (nonce : Vector UInt8 12) : Sealed StreamTicketKey (List UInt8) :=
  ⟨call.key, nonce.toList, aad call.trackUrn, plaintextOf call, call.ciphertext⟩

/-- An issued ticket is the text of one of the sealings. -/
structure Backed (cipher : Cipher) (i : Issued) (nonce : Vector UInt8 12) : Prop where
  clock : unixSeconds i.call.now = .ok (i.call.now.toNat / second)
  expires : expiresAt i.call < 2 ^ 64
  secret : (asBytes (i.call.secretToken.getD "")).length ≤ maxSecretLen
  entry : sealedOf i.call nonce ∈ cipher.entries
  ticket : i.ticket = String.ofList (urlSafeNoPad.encode (nonce.toList ++ i.call.ciphertext))

theorem unixSeconds_eq_ok {time : Int} (h : unixSeconds time = .ok t) : t = time.toNat / second := by
  unfold unixSeconds at h
  split_ifs at h
  exact (Except.ok.inj h).symm

theorem issueAt_eq_ok {ticket : String} (h : issueAt cipher call = .ok (cipher', ticket)) :
    ∃ nonce, cipher'.entries = sealedOf call nonce :: cipher.entries ∧ Backed cipher' ⟨call, ticket⟩ nonce := by
  unfold issueAt at h
  cases hseconds : unixSeconds call.now with
  | error e =>
    rw [hseconds] at h
    cases h
  | ok seconds =>
    obtain rfl := unixSeconds_eq_ok hseconds
    simp only [hseconds] at h
    split at h
    · cases h
    rename_i hexpires
    split at h
    · cases h
    split_ifs at h with hsecret
    split at h
    · cases h
    rename_i nonce _
    split at h
    · cases h
    rename_i cipher₁ hencrypt
    cases h
    obtain ⟨hentries, -⟩ := Vault.encrypt_eq_some hencrypt
    refine ⟨nonce, hentries, hseconds, Nat.lt_of_not_le hexpires, Nat.le_of_not_lt hsecret, ?_, rfl⟩
    rw [hentries]
    exact List.mem_cons_self

theorem Backed.mono (h : Backed cipher i nonce)
    (hmore : ∀ e ∈ cipher.entries, e ∈ cipher'.entries) : Backed cipher' i nonce :=
  ⟨h.clock, h.expires, h.secret, hmore _ h.entry, h.ticket⟩

/-- The cipher's entries are those of the tickets issued. -/
structure Matched (w : World) : Prop where
  issued : ∀ i ∈ w.issued, ∃ nonce, Backed w.cipher i nonce
  entries : ∀ e ∈ w.cipher.entries, ∃ i ∈ w.issued, ∃ nonce, Backed w.cipher i nonce ∧ e = sealedOf i.call nonce

theorem matched_init : Matched World.init :=
  ⟨nofun, nofun⟩

theorem Matched.step {w' : World} (h : Matched w) (hstep : Impl.Streaming.step w call = some w') : Matched w' := by
  unfold Impl.Streaming.step at hstep
  split at hstep
  · cases hstep
    exact h
  · rename_i cipher ticket hissue
    cases hstep
    obtain ⟨nonce, hentries, hbacked⟩ := issueAt_eq_ok hissue
    have hmore : ∀ e ∈ w.cipher.entries, e ∈ cipher.entries := fun e he => hentries ▸ List.mem_cons_of_mem _ he
    refine ⟨fun i hi => ?_, fun e he => ?_⟩
    · rcases List.mem_cons.1 hi with rfl | hi
      · exact ⟨nonce, hbacked⟩
      · obtain ⟨nonce', hbacked'⟩ := h.issued i hi
        exact ⟨nonce', hbacked'.mono hmore⟩
    · have he : e ∈ cipher.entries := he
      rw [hentries] at he
      rcases List.mem_cons.1 he with rfl | he
      · exact ⟨_, List.mem_cons_self, nonce, hbacked, rfl⟩
      · obtain ⟨i, hi, nonce', hbacked', heq⟩ := h.entries e he
        exact ⟨i, List.mem_cons_of_mem _ hi, nonce', hbacked'.mono hmore, heq⟩

/-! ## Verifying -/

/-- The answer to an issued ticket at second `t`, for the issuing key and the issued track. -/
def outcome (call : IssueCall) (t : Nat) : Except StreamTicketError StreamTicket :=
  if t < expiresAt call ∧ expiresAt call - t ≤ 300 then .ok (granted call) else .error .expired

theorem verifyAt_issued (h : Backed cipher i nonce)
    (key : StreamTicketKey) (x : String) {now : Int} (hnow : unixSeconds now = .ok t) :
    verifyAt cipher key i.ticket x now =
      if key = i.call.key ∧ x = i.call.trackUrn then outcome i.call t else .error .invalidTicket := by
  have hplain : (plaintextOf i.call).length = headerLen + (asBytes (i.call.secretToken.getD "")).length :=
    length_plaintext _ _ _ _
  have hcipher : i.call.ciphertext.length = (plaintextOf i.call).length + tagLen := cipher.tagged _ h.entry
  have hsecret := h.secret
  have hlength : (nonce.toList ++ i.call.ciphertext).length = nonceLen + i.call.ciphertext.length := by
    rw [List.length_append, Vector.length_toList]
    rfl
  have hsize : ¬ i.ticket.utf8ByteSize > maxTicketLen := by
    rw [h.ticket, utf8ByteSize_encode, hlength, hcipher, hplain]
    simp only [nonceLen, headerLen, tagLen, maxTicketLen, maxSecretLen] at hsecret ⊢
    omega
  have hdecode : urlSafeNoPad.decode i.ticket.toList = some (nonce.toList ++ i.call.ciphertext) := by
    rw [h.ticket, String.toList_ofList, Alphabet.decode_encode]
  have htake : (nonce.toList ++ i.call.ciphertext).take nonceLen = nonce.toList :=
    List.take_left' (Vector.length_toList)
  have hdrop : (nonce.toList ++ i.call.ciphertext).drop nonceLen = i.call.ciphertext :=
    List.drop_left' (Vector.length_toList)
  have hdecrypt := Vault.decrypt_of_mem h.entry key (aad x)
  simp only [sealedOf, aad_inj] at hdecrypt
  have hlong : ¬ (nonce.toList ++ i.call.ciphertext).length < nonceLen + headerLen + tagLen := by omega
  by_cases hhere : key = i.call.key ∧ x = i.call.trackUrn
  · rw [if_pos hhere] at hdecrypt ⊢
    simp only [verifyAt, hsize, hdecode, hlong, htake, hdrop, hdecrypt, hnow, if_false]
    rw [parseTicket_plaintext h.expires h.secret, outcome]
  · rw [if_neg hhere] at hdecrypt ⊢
    simp only [verifyAt, hsize, hdecode, hlong, htake, hdrop, hdecrypt, if_false]

theorem outcome_cases (call : IssueCall) (t : Nat) :
    outcome call t = .ok (granted call) ∨ outcome call t = .error .expired := by
  unfold outcome
  split
  · exact .inl rfl
  · exact .inr rfl

theorem verifyKeys_issued (h : Backed cipher i nonce) (x : String) (hclock : ∀ n, unixSeconds (clock n) = .ok t)
    (keys : List StreamTicketKey) (n : Nat) : verifyKeys cipher i.ticket x clock keys n (.error .invalidTicket) =
      if i.call.key ∈ keys ∧ x = i.call.trackUrn then outcome i.call t else .error .invalidTicket := by
  induction keys generalizing n with
  | nil => rw [if_neg fun h => List.not_mem_nil h.1, verifyKeys]
  | cons key keys ih =>
    rw [verifyKeys, verifyAt_issued h key x (hclock n)]
    by_cases hhere : key = i.call.key ∧ x = i.call.trackUrn
    · rw [if_pos hhere, if_pos ⟨hhere.1 ▸ List.mem_cons_self, hhere.2⟩]
      rcases outcome_cases i.call t with hout | hout <;> rw [hout]
    · -- this key cannot open the ticket, or none of them can
      rw [if_neg hhere]
      have hiff : i.call.key ∈ key :: keys ∧ x = i.call.trackUrn ↔ i.call.key ∈ keys ∧ x = i.call.trackUrn := by
        refine and_congr_left fun hx => ⟨fun hmem => ?_, List.mem_cons_of_mem _⟩
        exact (List.mem_cons.1 hmem).resolve_left fun heq => hhere ⟨heq.symm, hx⟩
      simp only [hiff, ih (n + 1)]

/-- What a key accepts was sealed under it for the track, and its text is the ticket of that sealing. -/
theorem verifyAt_eq_ok (h : Matched w) {key : StreamTicketKey} {now : Int}
    (hverify : verifyAt w.cipher key encoded x now = .ok ticket) :
    ∃ i ∈ w.issued, i.ticket = encoded ∧ i.call.trackUrn = x ∧ i.call.key = key := by
  unfold verifyAt at hverify
  split_ifs at hverify
  split at hverify
  · cases hverify
  rename_i bytes hdecode
  split_ifs at hverify
  split at hverify
  · cases hverify
  rename_i plain hplain
  obtain ⟨i, hi, nonce, hbacked, hentry⟩ := h.entries _ (Vault.decrypt_eq_some.1 hplain)
  injection hentry with hkey hnonce haad hplain hcipher
  refine ⟨i, hi, ?_, (aad_inj.1 haad).symm, hkey.symm⟩
  rw [hbacked.ticket, ← hnonce, ← hcipher, List.take_append_drop, Alphabet.encode_of_decode _ hdecode,
    String.ofList_toList]

theorem verifyKeys_eq_ok (h : Matched w) {keys : List StreamTicketKey} {e : StreamTicketError}
    (hverify : verifyKeys w.cipher encoded x clock keys n (.error e) = .ok ticket) :
    ∃ i ∈ w.issued, i.ticket = encoded ∧ i.call.trackUrn = x ∧ i.call.key ∈ keys := by
  induction keys generalizing n e with
  | nil => cases hverify
  | cons key keys ih =>
    unfold verifyKeys at hverify
    split at hverify
    · rename_i hkey
      obtain ⟨i, hi, hticket, htrack, rfl⟩ := verifyAt_eq_ok h hkey
      exact ⟨i, hi, hticket, htrack, List.mem_cons_self⟩
    · cases hverify
    · cases hverify
    · obtain ⟨i, hi, hticket, htrack, hmem⟩ := ih hverify
      exact ⟨i, hi, hticket, htrack, List.mem_cons_of_mem _ hmem⟩

theorem expiresAt_eq {s : Nat} (h : unixSeconds call.now = .ok s) :
    expiresAt call = s + min (call.ttl / second) 300 := by
  rw [expiresAt, unixSeconds_eq_ok h]
  simp only [maxLifetime, second]
  omega

/-- How a ring answers an issued ticket at second `t`, when the ticket expires at second `e`. -/
structure Answered (cipher : Cipher) (i : Issued) (e t : Nat) (ring : StreamTicketKeys) (x : String)
    (clock : Nat → Int) : Prop where
  ok : ∀ ticket, ring.verify cipher i.ticket x clock = .ok ticket ↔
    (i.call.key ∈ ring.keys ∧ x = i.call.trackUrn ∧ t < e ∧ e - t ≤ 300) ∧ ticket = granted i.call
  expired : i.call.key ∈ ring.keys → x = i.call.trackUrn → ¬ (t < e ∧ e - t ≤ 300) →
    ring.verify cipher i.ticket x clock = .error .expired

/-- After any calls of `issue_at`, an issued ticket verifies as what was issued, and nothing else verifies. -/
theorem ticket_verified {calls : List IssueCall} {w : World} (h : run step World.init calls = some w) :
    (∀ i ∈ w.issued, ∀ s t clock, unixSeconds i.call.now = .ok s → (∀ n, unixSeconds (clock n) = .ok t) →
      ∀ ring x, Answered w.cipher i (s + min (i.call.ttl / second) 300) t ring x clock) ∧
    ∀ (ring : StreamTicketKeys) encoded x clock ticket, ring.verify w.cipher encoded x clock = .ok ticket →
      ∃ i ∈ w.issued, i.ticket = encoded ∧ i.call.trackUrn = x ∧ i.call.key ∈ ring.keys := by
  have hmatched : Matched w := run_invariant Matched.step matched_init h
  refine ⟨fun i hi s t clock hs hclock ring x => ?_, fun ring encoded x clock ticket hverify => ?_⟩
  · obtain ⟨nonce, hbacked⟩ := hmatched.issued i hi
    have hanswer := verifyKeys_issued hbacked x hclock ring.keys 0
    rw [outcome, expiresAt_eq hs] at hanswer
    refine ⟨fun ticket => ?_, fun hkey hx hout => ?_⟩
    · rw [StreamTicketKeys.verify, hanswer]
      by_cases hhere : i.call.key ∈ ring.keys ∧ x = i.call.trackUrn
      · rw [if_pos hhere]
        split
        · rename_i hlive
          exact ⟨fun hok => ⟨⟨hhere.1, hhere.2, hlive⟩, (Except.ok.inj hok).symm⟩, fun hok => by rw [hok.2]⟩
        · rename_i hlive
          exact ⟨nofun, fun hok => absurd hok.1.2.2 hlive⟩
      · rw [if_neg hhere]
        exact ⟨nofun, fun hok => absurd ⟨hok.1.1, hok.1.2.1⟩ hhere⟩
    · rw [StreamTicketKeys.verify, hanswer, if_pos ⟨hkey, hx⟩, if_neg hout]
  · exact verifyKeys_eq_ok hmatched hverify

def sampleCall : IssueCall where
  key := ⟨Vector.replicate 32 7⟩
  sessionId := 5
  trackUrn := "soundcloud:tracks:7"
  secretToken := some "s-1"
  highQuality := true
  ttl := 60 * second
  now := 1000 * second
  nonce := some (Vector.replicate 12 9)
  ciphertext := List.replicate 47 3

theorem sampleRing_size :
    ([⟨Vector.replicate 32 1⟩, ⟨Vector.replicate 32 7⟩] : List StreamTicketKey) ≠ [] ∧ 2 ≤ maxKeys := by decide

theorem ticket_verified_minute : ∃ w i, run step World.init [sampleCall] = some w ∧ i ∈ w.issued ∧
      StreamTicketKeys.verify ⟨_, sampleRing_size⟩ w.cipher i.ticket "soundcloud:tracks:7" (fun _ => 1059 * second) =
        .ok ⟨5, some "s-1", true⟩ ∧
      StreamTicketKeys.verify ⟨_, sampleRing_size⟩ w.cipher i.ticket "soundcloud:tracks:7" (fun _ => 1060 * second) =
        .error .expired := by
  obtain ⟨w, i, hrun, hi, hcall⟩ : ∃ w i, run step World.init [sampleCall] = some w ∧ i ∈ w.issued ∧
      i.call = sampleCall := ⟨_, _, rfl, List.mem_cons_self, rfl⟩
  have hkey : i.call.key ∈ [⟨Vector.replicate 32 1⟩, ⟨Vector.replicate 32 7⟩] := by
    rw [hcall]
    decide
  have htrack : "soundcloud:tracks:7" = i.call.trackUrn := hcall ▸ rfl
  have hissued : unixSeconds i.call.now = .ok 1000 := hcall ▸ rfl
  have hexpires : 1000 + min (i.call.ttl / second) 300 = 1060 := by
    rw [hcall]
    decide
  have hanswered := (ticket_verified hrun).1 i hi 1000
  rw [hexpires] at hanswered
  refine ⟨w, i, hrun, hi, ?_, ?_⟩
  · refine ((hanswered 1059 _ hissued (fun _ => rfl) _ _).ok _).2 ⟨⟨hkey, htrack, by decide, by decide⟩, ?_⟩
    rw [hcall]
    rfl
  · exact (hanswered 1060 _ hissued (fun _ => rfl) _ _).expired hkey htrack (by decide)

end SC.Proof.Streaming
