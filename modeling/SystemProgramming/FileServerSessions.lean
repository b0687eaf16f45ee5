import SystemProgramming.FileServerDialogue

/-!
# Sessions with a child server

Where every request gets one complete reply, the client and its child server take turns,
whatever the order of their steps: what the user sees of a session is what one program
would show that serves the typed commands one after the other. One thing is out of turn: a
client that has refused to overwrite a file is at its prompt before the server has read
the answer.
-/
namespace SystemProgramming.FileServer
open SystemProgramming.Transition SystemProgramming.Strtok SystemProgramming.LineReader
  SystemProgramming.LockTable

/-- A session goes on with messages that do not end it. -/
def GoesOn (s t : Session) : Prop :=
  ∃ ms, t.sent = s.sent ++ ms ∧ ∀ m, m ∈ ms → m.stat ≠ .disconnect

lemma GoesOn.refl (s : Session) : GoesOn s s := ⟨[], by simp, by simp⟩

lemma GoesOn.trans {s t u : Session} (h : GoesOn s t) (h' : GoesOn t u) : GoesOn s u := by
  obtain ⟨ms, hms, hstat⟩ := h
  obtain ⟨ms', hms', hstat'⟩ := h'
  refine ⟨ms ++ ms', by rw [hms', hms, List.append_assoc], fun m hm => ?_⟩
  rcases List.mem_append.mp hm with hm | hm
  · exact hstat m hm
  · exact hstat' m hm

lemma GoesOn.send {s t : Session} (h : GoesOn s t) {m : Message} (hm : m.stat ≠ .disconnect) :
    GoesOn s (t.send m) := h.trans ⟨[m], rfl, by simpa using hm⟩

/-- Only what has been sent counts. -/
lemma GoesOn.same {s t : Session} (h : t.sent = s.sent) : GoesOn s t := ⟨[], by simp [h], by simp⟩

lemma findSfile_goesOn {k : Kernel} {s t : Session} {name : Text}
    (h : findSfile k s name = some t) : GoesOn s t := by
  unfold findSfile at h
  split at h
  · cases h
    exact .refl s
  · obtain ⟨r, -, rfl⟩ := Option.map_eq_some_iff.mp h
    exact .same rfl

lemma copyOpened_goesOn {k : Kernel} {s : Session} {src : File} {srcFile : Option Text}
    {r : ℤ × Session} (h : copyOpened k s src srcFile = some r) : GoesOn s r.2 := by
  obtain ⟨name, -, rfl⟩ := Option.map_eq_some_iff.mp h
  cases hfind : findSfile k s name with
  | none => exact .refl s
  | some t =>
    cases hcopy : copyFile k src with
    | none => simpa [hfind, hcopy] using findSfile_goesOn hfind
    | some bytes =>
      simpa [hfind, hcopy] using (findSfile_goesOn hfind).send (m := ⟨.ok, _⟩) (by simp)

lemma cmdCopy_goesOn {k : Kernel} {s : Session} {overwrite : Bool} {srcDir : Text}
    {srcFile : Option Text} {destDir : Text} {r : ℤ × Session}
    (h : cmdCopy k s overwrite srcDir srcFile destDir = some r) : GoesOn s r.2 := by
  unfold cmdCopy at h
  dsimp only at h
  split at h
  · cases h
    exact .refl s
  · split_ifs at h
    · exact copyOpened_goesOn h
    · cases h
      exact .send (.same rfl) (by simp)
    · cases h
      exact .send (.same rfl) (by simp)
    · refine GoesOn.trans ?_ (copyOpened_goesOn h)
      exact .send (.same rfl) (by simp)

lemma GoesOn.reply {s : Session} {r : ℤ × Session} (h : GoesOn s r.2) :
    s.sent <+: replyOf r := by
  obtain ⟨ms, hms, -⟩ := h
  rw [replyOf, hms]
  split_ifs
  · rw [List.append_assoc]
    exact List.prefix_append _ _
  · exact List.prefix_append _ _

/-- The question does not depend on its answer. -/
lemma cmdCopy_prefix {k : Kernel} {s : Session} {srcDir : Text} {srcFile : Option Text}
    {destDir : Text} {r r' : ℤ × Session}
    (h : cmdCopy k s false srcDir srcFile destDir = some r)
    (h' : cmdCopy k s true srcDir srcFile destDir = some r') : replyOf r <+: replyOf r' := by
  unfold cmdCopy at h h'
  dsimp only at h h'
  cases hsrc : k.openRead (dirPath srcDir (srcFile.getD nullText)) with
  | none =>
    rw [hsrc] at h h'
    cases h
    cases h'
    exact List.prefix_refl _
  | some src =>
    rw [hsrc] at h h'
    dsimp only at h h'
    by_cases hnew : k.createNew (dirPath destDir (srcFile.getD nullText)) = true
    · rw [if_pos hnew] at h h'
      cases h.symm.trans h'
      exact List.prefix_refl _
    · rw [if_neg hnew] at h h'
      by_cases hlong : errMsgLen ≤ (approveQuestion (srcFile.getD nullText)).length
      · rw [if_pos hlong] at h
        cases h
      · rw [if_neg hlong, if_pos rfl] at h
        rw [if_neg hlong, if_neg (by simp)] at h'
        cases h
        split_ifs at h'
        · cases h'
          exact GoesOn.reply (.refl _)
        · exact (copyOpened_goesOn h').reply

lemma readLine_goesOn {k : Kernel} {s : Session} {f : File} {lineNo : ℕ} {r : ℤ × Session}
    (h : readLine k s f lineNo = some r) : GoesOn s r.2 := by
  obtain ⟨found, -, h⟩ := Option.bind_eq_some_iff.mp h
  cases found with
  | error msg =>
    cases h
    exact .same rfl
  | ok found =>
    obtain ⟨line, -, rfl⟩ := Option.map_eq_some_iff.mp h
    cases line with
    | none => exact .same rfl
    | some line => exact .send (.refl s) (by simp)

lemma sendPieces_goesOn (size : ℕ) (pieces : List Text) (numRead : ℤ) (s : Session) :
    GoesOn s (sendPieces size pieces numRead s).1 := by
  induction pieces generalizing numRead s with
  | nil => exact .refl s
  | cons piece pieces ih =>
    rw [sendPieces]
    split_ifs
    · exact GoesOn.trans (.send (.refl s) (by simp)) (ih _ _)
    · exact .send (.refl s) (by simp)

lemma readWhole_goesOn {k : Kernel} {s : Session} {f : File} {r : ℤ × Session}
    (h : readWhole k s f = some r) : GoesOn s r.2 := by
  have hsent := sendPieces_goesOn f.size f.pieces 0 s
  unfold readWhole at h
  split at h
  · rename_i t hpieces
    cases h
    rwa [hpieces] at hsent
  · rename_i t hpieces
    split_ifs at h
    cases h
    rwa [hpieces] at hsent

lemma cmdReadF_goesOn {k : Kernel} {s : Session} {srcFile : Text} {lineNo : ℤ} {r : ℤ × Session}
    (h : cmdReadF k s srcFile lineNo = some r) : GoesOn s r.2 := by
  unfold cmdReadF at h
  split at h
  · cases h
    exact .refl s
  · cases hfind : findSfile k s srcFile with
    | none =>
      rw [hfind] at h
      split_ifs at h <;> cases h <;> exact .refl s
    | some t =>
      rw [hfind] at h
      dsimp only at h
      have hfound := findSfile_goesOn hfind
      split_ifs at h
      · cases h
        exact .refl s
      · cases h
        exact hfound
      · obtain ⟨r, hr, rfl⟩ := Option.map_eq_some_iff.mp h
        have hline := readLine_goesOn hr
        exact hfound.trans hline
      · obtain ⟨r, hr, rfl⟩ := Option.map_eq_some_iff.mp h
        have hwhole := readWhole_goesOn hr
        exact hfound.trans hwhole

lemma writeString_goesOn (k : Kernel) (s : Session) (srcFile str : Text) :
    GoesOn s (writeString k s srcFile str).2 := by
  unfold writeString
  split
  · exact .refl s
  · exact .send (.refl s) (by simp)

lemma cmdWriteT_goesOn {k : Kernel} {s : Session} {srcFile str : Text} {lineNo : ℤ}
    {r : ℤ × Session} (h : cmdWriteT k s srcFile str lineNo = some r) : GoesOn s r.2 := by
  unfold cmdWriteT at h
  split at h
  · cases h
    exact .refl s
  · split at h
    · cases h
      exact .refl s
    · rename_i t hfind
      refine (findSfile_goesOn hfind).trans ?_
      split_ifs at h
      · obtain ⟨found, -, rfl⟩ := Option.map_eq_some_iff.mp h
        cases found with
        | error msg => exact .same rfl
        | ok found => exact writeString_goesOn _ _ _ _
      · cases h
        exact writeString_goesOn _ _ _ _

lemma withLine_goesOn {s : Session} {arg : Text} {f : ℤ → Option (ℤ × Session)} {r : ℤ × Session}
    (hf : ∀ n r, f n = some r → GoesOn s r.2) (h : withLine s arg f = some r) : GoesOn s r.2 := by
  rcases withLine_cases h with rfl | ⟨n, -, hn⟩
  · exact .same rfl
  · exact hf n r hn

/-- Only two commands end a session. -/
lemma handle_goesOn {k : Kernel} {s : Session} {overwrite : Bool} {args : List Text} {c : Command}
    (hquit : c ≠ .quit) (hkill : c ≠ .killServer) {r : ℤ × Session}
    (h : handle k s overwrite args c = some r) : GoesOn s r.2 := by
  cases c with
  | quit => exact absurd rfl hquit
  | killServer => exact absurd rfl hkill
  | help =>
    have hhelp : ∀ cmd, GoesOn s (cmdHelp s cmd).2 := fun cmd => .send (.refl s) (by simp)
    simp only [handle, Option.some.injEq] at h
    subst h
    split
    · exact hhelp _
    · split
      · exact hhelp _
      · exact .same rfl
    · exact .refl s
  | list =>
    simp only [handle, cmdList] at h
    split_ifs at h
    cases h
    exact .send (.refl s) (by simp)
  | readF =>
    simp only [handle] at h
    split at h
    · exact cmdReadF_goesOn h
    · exact withLine_goesOn (fun _ _ => cmdReadF_goesOn) h
    · cases h
      exact .refl s
  | writeT =>
    simp only [handle] at h
    split at h
    · exact cmdWriteT_goesOn h
    · exact withLine_goesOn (fun _ _ => cmdWriteT_goesOn) h
    · cases h
      exact .refl s
  | upload | download => exact cmdCopy_goesOn h
  | archServer =>
    simp only [handle, cmdArchServer] at h
    split at h
    · cases h
      exact .same rfl
    · split_ifs at h
      · cases h
        exact .refl s
      · cases h
        exact .same rfl
      · cases h
        exact .send (.refl s) (by simp)

lemma handle_prefix {k : Kernel} {s : Session} {args : List Text} {c : Command}
    {r r' : ℤ × Session} (h : handle k s false args c = some r)
    (h' : handle k s true args c = some r') : replyOf r <+: replyOf r' := by
  cases c with
  | upload | download => exact cmdCopy_prefix h h'
  | _ =>
    cases h.symm.trans h'
    exact List.prefix_refl _

/-- The session at the start of a request. -/
def Session.logged (s : Session) (cmd : Text) : Session :=
  { s with sent := [], log := s.log ++ [LogEntry.request cmd] }

lemma serverRequest_some {k : Kernel} {s t : Session} {cmd : Text} {overwrite : Bool}
    (h : serverRequest k s cmd overwrite = some t) :
    commandOf (parseCommand cmd).cmd = none ∧ t.sent = [] ∨
    ∃ c r, commandOf (parseCommand cmd).cmd = some c ∧
      handle k (s.logged (parseCommand cmd).cmd) overwrite (parseCommand cmd).words.tail c =
        some r ∧ t.sent = replyOf r := by
  unfold serverRequest at h
  dsimp only at h
  split_ifs at h
  cases hc : commandOf (parseCommand cmd).cmd with
  | none =>
    rw [hc] at h
    cases h
    exact .inl ⟨rfl, by rw [sent_finish]; rfl⟩
  | some c =>
    rw [hc] at h
    obtain ⟨r, hr, rfl⟩ := Option.map_eq_some_iff.mp h
    exact .inr ⟨c, r, rfl, hr, sent_finish _ _ _⟩

/-- The client is sent away just by the commands behind which the server leaves. -/
lemma serverRequest_leaves {k : Kernel} {s t : Session} {cmd : Text} {overwrite : Bool}
    (h : serverRequest k s cmd overwrite = some t) :
    (leaves cmd = true → t.sent = [⟨.disconnect, []⟩]) ∧
      (leaves cmd = false → ∀ m, m ∈ t.sent → m.stat ≠ .disconnect) := by
  rcases serverRequest_some h with ⟨hc, hsent⟩ | ⟨c, r, hc, hr, hsent⟩
  · simp [leaves, hc, hsent]
  · rw [leaves, hc, hsent]
    by_cases hleaves : c = .quit ∨ c = .killServer
    · refine ⟨fun _ => ?_, fun h => absurd h (by simp [hleaves])⟩
      rcases hleaves with rfl | rfl <;> cases hr <;> rfl
    · obtain ⟨hquit, hkill⟩ := not_or.mp hleaves
      refine ⟨fun h => absurd h (by simpa using hleaves), fun _ m hm => ?_⟩
      obtain ⟨ms, hms, hstat⟩ := handle_goesOn hquit hkill hr
      have hall : ∀ q, q ∈ r.2.sent → q.stat ≠ .disconnect := by
        intro q hq
        rw [hms] at hq
        exact hstat q hq
      rw [replyOf] at hm
      split_ifs at hm
      · rcases List.mem_append.mp hm with hm | hm
        · exact hall m hm
        · rw [List.mem_singleton.mp hm]
          simp
      · exact hall m hm

lemma serverRequest_prefix {k : Kernel} {s t t' : Session} {cmd : Text}
    (h : serverRequest k s cmd false = some t) (h' : serverRequest k s cmd true = some t') :
    t.sent <+: t'.sent := by
  rcases serverRequest_some h with ⟨-, hsent⟩ | ⟨c, r, hc, hr, hsent⟩
  · rw [hsent]
    exact List.nil_prefix
  · rcases serverRequest_some h' with ⟨hc', -⟩ | ⟨c', r', hc', hr', hsent'⟩
    · rw [hc] at hc'
      cases hc'
    · obtain rfl := Option.some.inj (hc.symm.trans hc')
      rw [hsent, hsent']
      exact handle_prefix hr hr'

/-- The request gets one complete reply, whose bodies have at most `pipeBuf` bytes. -/
def Good (k : Kernel) (s : Session) (cmd : Text) (overwrite : Bool) : Prop :=
  ∃ t, serverRequest k s cmd overwrite = some t ∧ Complete overwrite t.sent

lemma Good.whole {k : Kernel} {s t : Session} {cmd : Text} {overwrite : Bool}
    (h : Good k s cmd overwrite) (ht : serverRequest k s cmd overwrite = some t) :
    Whole t.sent := by
  obtain ⟨t', ht', -, hwhole⟩ := h
  rwa [Option.some.inj (ht.symm.trans ht')]

/-- Requests are only served, and served on, when they get a good reply. -/
def Answered (l : Link) : Move → Prop
  | .serve k => ∀ s dataSize cmd packets, l.server = ⟨[], .request s dataSize⟩ →
      l.toServer = .command cmd :: packets → Good k s cmd false
  | .readAnswer => ∀ k s cmd asked yesOrNo packets, l.server = ⟨[], .asking k s cmd asked⟩ →
      l.toServer = .answer yesOrNo :: packets → Good k s cmd yesOrNo
  | _ => True

/-- A message, and the answer if it is a question. -/
def heardWith (overwrite : Bool) (m : Message) : List Seen :=
  .heard m :: if m.stat = .approve then [.answered overwrite] else []

def exchange (cmd : Text) (overwrite : Bool) (sent : List Message) : List Seen :=
  .typed cmd :: sent.flatMap (heardWith overwrite)

/-- What a user sees of one program that serves the typed commands one after the other. -/
inductive Dialogue (s₀ : Session) : List Seen → Session → Prop
  | nothing : Dialogue s₀ [] s₀
  | request {seen : List Seen} {s t : Session} (h : Dialogue s₀ seen s) (k : Kernel)
      (line : CommandLine) (overwrite : Bool)
      (hserved : serverRequest k s line.text overwrite = some t) :
      Dialogue s₀ (seen ++ exchange line.text overwrite t.sent) t

/-- The server waits for a request, once it has read the packets in `front`. -/
inductive Waits (s₀ : Session) (seen : List Seen) (s : Session) : ChildServer → List Packet → Prop
  | ready (h : Dialogue s₀ seen s) : Waits s₀ seen s ⟨[], .ready s⟩ []
  | refused {k : Kernel} {s' : Session} {cmd : Text} (h : Dialogue s₀ seen s)
      (hserved : serverRequest k s' cmd false = some s) (hgood : Good k s' cmd false) :
      Waits s₀ seen s ⟨[], .asking k s' cmd s.sent⟩ [.answer false]

/-- A request is served: without a question, up to its question, or behind it. -/
inductive Serving (k : Kernel) (s : Session) (cmd : Text) (t : Session) (said : List Message) :
    Bool → Next → Prop
  | plain (hplain : ∀ m, m ∈ t.sent → m.stat ≠ .approve) :
      Serving k s cmd t said false (if leaves cmd then .closed else .ready t)
  | question (q : Message) (hsent : t.sent = [q]) (hq : q.stat = .approve) :
      Serving k s cmd t said false (.asking k s cmd t.sent)
  | approved (q m : Message) (hsent : t.sent = [q, m]) (hq : q.stat = .approve)
      (hsaid : said = [q]) (hm : m.stat = .ok ∨ m.stat = .error) :
      Serving k s cmd t said true (.ready t)

/-- What the client has still to read: messages from a header on, or from a body on. -/
inductive Unread (flight out : List (List Cell)) : Client → List Message → Prop
  | header {rest : List Message} (hrest : rest ≠ [])
      (h : flight ++ out = rest.flatMap Message.writes) : Unread flight out .header rest
  | body {m : Message} {rest : List Message} (hm : m.body ≠ []) (hstat : m.stat ≠ .disconnect)
      (h : flight ++ out = m.body.map .byte :: rest.flatMap Message.writes) :
      Unread flight out (.body m.stat m.body.length) (m :: rest)

/-- The states of a session. -/
inductive Phase (s₀ : Session) : Link → Prop
  | prompt {s : Session} {seen : List Seen} {server : ChildServer} {front : List Packet}
      (h : Waits s₀ seen s server front) : Phase s₀ ⟨.prompt, front, [], server, seen⟩
  | writing {s : Session} {seen : List Seen} {server : ChildServer} {front : List Packet}
      (h : Waits s₀ seen s server front) (line : CommandLine) :
      Phase s₀ ⟨.writing line, front ++ [.header (line.text.length + 1)], [], server,
        seen ++ [.typed line.text]⟩
  | writingRead {s : Session} {seen : List Seen} (h : Dialogue s₀ seen s) (line : CommandLine) :
      Phase s₀ ⟨.writing line, [], [], ⟨[], .request s (line.text.length + 1)⟩,
        seen ++ [.typed line.text]⟩
  | written {s : Session} {seen : List Seen} {server : ChildServer} {front : List Packet}
      (h : Waits s₀ seen s server front) (line : CommandLine) :
      Phase s₀ ⟨.header, front ++ [.header (line.text.length + 1), .command line.text], [], server,
        seen ++ [.typed line.text]⟩
  | writtenRead {s : Session} {seen : List Seen} (h : Dialogue s₀ seen s) (line : CommandLine) :
      Phase s₀ ⟨.header, [.command line.text], [], ⟨[], .request s (line.text.length + 1)⟩,
        seen ++ [.typed line.text]⟩
  | replying {s t : Session} {seen : List Seen} (h : Dialogue s₀ seen s) (k : Kernel)
      (line : CommandLine) {overwrite : Bool} {next : Next} {client : Client}
      {said rest : List Message} {flight out : List (List Cell)}
      (hserved : serverRequest k s line.text overwrite = some t)
      (hgood : Good k s line.text overwrite) (hsent : t.sent = said ++ rest)
      (hserving : Serving k s line.text t said overwrite next)
      (hunread : Unread flight out client rest) :
      Phase s₀ ⟨client, [], flight.flatten, ⟨out, next⟩, seen ++ exchange line.text overwrite said⟩
  | asked {s t : Session} {seen : List Seen} (h : Dialogue s₀ seen s) (k : Kernel)
      (line : CommandLine) (q : Message) (hgood : Good k s line.text false)
      (hserved : serverRequest k s line.text false = some t) (hsent : t.sent = [q])
      (hq : q.stat = .approve) :
      Phase s₀ ⟨.approving, [], [], ⟨[], .asking k s line.text t.sent⟩,
        seen ++ [.typed line.text, .heard q]⟩
  | approved {s t : Session} {seen : List Seen} (h : Dialogue s₀ seen s) (k : Kernel)
      (line : CommandLine) (q : Message)
      (hserved : serverRequest k s line.text false = some t) (hsent : t.sent = [q])
      (hq : q.stat = .approve) :
      Phase s₀ ⟨.header, [.answer true], [], ⟨[], .asking k s line.text t.sent⟩,
        seen ++ [.typed line.text, .heard q, .answered true]⟩
  | gone {s : Session} {seen : List Seen} (h : Dialogue s₀ seen s) :
      Phase s₀ ⟨.disconnected, [], [], ⟨[], .closed⟩, seen⟩

lemma phase_connected (s : Session) : Phase s (connected s) := .prompt (.ready .nothing)

/-- A server that waits reads the next request, or first the answer no. -/
lemma Waits.step {s₀ s : Session} {seen seen' : List Seen} {server : ChildServer}
    {front extra : List Packet} {client : Client} (h : Waits s₀ seen s server front) {a : Move}
    {l' : Link}
    (ha : a = .readRequest ∨ (∃ k, a = .serve k) ∨ (∃ n, a = .put n) ∨ a = .readAnswer)
    (hst : linkStep ⟨client, front ++ extra, [], server, seen'⟩ a = some l') :
    Dialogue s₀ seen s ∧
      ((∃ n rest, server = ⟨[], .ready s⟩ ∧ extra = .header n :: rest ∧
        l' = ⟨client, rest, [], ⟨[], .request s n⟩, seen'⟩) ∨
      l' = ⟨client, extra, [], ⟨[], .ready s⟩, seen'⟩) := by
  cases h with
  | ready h =>
    refine ⟨h, .inl ?_⟩
    rcases ha with rfl | ⟨k, rfl⟩ | ⟨n, rfl⟩ | rfl
    · simp only [linkStep, List.nil_append] at hst
      cases extra with
      | nil => cases hst
      | cons p rest =>
        cases p with
        | header n =>
          cases hst
          exact ⟨n, rest, rfl, rfl, rfl⟩
        | command cmd | answer b => cases hst
    all_goals simp [linkStep] at hst
  | refused h hserved hgood =>
    refine ⟨h, .inr ?_⟩
    rcases ha with rfl | ⟨k, rfl⟩ | ⟨n, rfl⟩ | rfl
    · simp [linkStep] at hst
    · simp [linkStep] at hst
    · simp [linkStep] at hst
    · simpa [linkStep, ChildServer.resume, hserved] using hst.symm

/-- A message of a complete reply goes on, is a question, or is the last one. -/
lemma Replied.split {overwrite : Bool} {said rest : List Message} {m : Message}
    (h : Replied overwrite (said ++ m :: rest)) :
    m.stat = .cont ∧ rest ≠ [] ∨ m.stat = .approve ∨
      (m.stat = .ok ∨ m.stat = .error ∨ m.stat = .disconnect ∧ m.body = []) ∧ rest = [] := by
  generalize hms : said ++ m :: rest = ms at h
  cases h with
  | final conts last hconts hlast =>
    rcases List.eq_nil_or_concat rest with rfl | ⟨rest', x, rfl⟩
    · obtain ⟨-, heq⟩ := List.append_inj' hms rfl
      cases heq
      exact .inr (.inr ⟨hlast, rfl⟩)
    · have hsplit : (said ++ m :: rest') ++ [x] = conts ++ [last] := by
        rw [← hms]
        simp
      obtain ⟨rfl, -⟩ := List.append_inj' hsplit rfl
      exact .inl ⟨hconts m (by simp), by simp⟩
  | refused q hq ho =>
    cases said with
    | nil =>
      cases hms
      exact .inr (.inl hq)
    | cons p said => simp at hms
  | approved q last hq ho hlast =>
    cases said with
    | nil =>
      cases hms
      exact .inr (.inl hq)
    | cons p said =>
      cases said with
      | nil =>
        cases hms
        exact .inr (.inr ⟨hlast.imp_right .inl, rfl⟩)
      | cons p' said => simp at hms

lemma exchange_snoc (cmd : Text) (overwrite : Bool) (said : List Message) (m : Message) :
    exchange cmd overwrite (said ++ [m]) =
      exchange cmd overwrite said ++ heardWith overwrite m := by
  simp [exchange]

lemma exchange_heard {m : Message} (hm : m.stat ≠ .approve) (cmd : Text) (overwrite : Bool)
    (said : List Message) :
    exchange cmd overwrite (said ++ [m]) = exchange cmd overwrite said ++ [.heard m] := by
  rw [exchange_snoc, heardWith, if_neg hm]

/-- The client has read a message. -/
lemma Phase.heard {s₀ s t : Session} {seen : List Seen} (h : Dialogue s₀ seen s) {k : Kernel}
    {line : CommandLine} {overwrite : Bool} {next : Next} {said rest : List Message} {m : Message}
    {flight out : List (List Cell)} (hserved : serverRequest k s line.text overwrite = some t)
    (hgood : Good k s line.text overwrite) (hsent : t.sent = said ++ m :: rest)
    (hserving : Serving k s line.text t said overwrite next)
    (hflight : flight ++ out = rest.flatMap Message.writes) :
    Phase s₀ ⟨afterMessage m.stat, [], flight.flatten, ⟨out, next⟩,
      seen ++ exchange line.text overwrite said ++ [.heard m]⟩ := by
  obtain ⟨t', ht', hreplied, -⟩ := id hgood
  obtain rfl := Option.some.inj (hserved.symm.trans ht')
  rw [hsent] at hreplied
  have hleaves := serverRequest_leaves hserved
  rcases hreplied.split with ⟨hm, hrest⟩ | hm | ⟨hm, rfl⟩
  · -- another message follows
    have hne : m.stat ≠ .approve := by simp [hm]
    have hafter : afterMessage m.stat = .header := by rw [hm]; rfl
    rw [hafter, List.append_assoc, ← exchange_heard hne]
    refine .replying h k line hserved hgood (by rw [hsent]; simp) ?_ (.header hrest hflight)
    cases hserving with
    | plain hplain => exact .plain hplain
    | question q hq hstat => exact .question q hq hstat
    | approved q m' hq hstat hsaid hm' =>
      rw [hsent, hsaid] at hq
      cases hq
      simp [hm] at hm'
  · have hafter : afterMessage m.stat = .approving := by rw [hm]; rfl
    cases hserving with
    | plain hplain => exact absurd hm (hplain m (by simp [hsent]))
    | question q hq hstat =>
      rw [hsent] at hq
      cases said with
      | nil =>
        cases hq
        obtain ⟨rfl, rfl⟩ := List.append_eq_nil_iff.mp hflight
        rw [hafter, List.append_assoc]
        exact .asked h k line m hgood hserved (by rw [hsent]; rfl) hm
      | cons p said => simp at hq
    | approved q m' hq hstat hsaid hm' =>
      rw [hsent, hsaid] at hq
      cases hq
      simp [hm] at hm'
  · obtain ⟨rfl, rfl⟩ := List.append_eq_nil_iff.mp hflight
    have hne : m.stat ≠ .approve := by rcases hm with hm | hm | ⟨hm, -⟩ <;> simp [hm]
    have hdialogue := Dialogue.request h k line overwrite hserved
    rw [List.append_assoc, ← exchange_heard hne, ← hsent]
    have hprompt : m.stat = .ok ∨ m.stat = .error → afterMessage m.stat = .prompt := by
      rintro (hm | hm) <;> rw [hm] <;> rfl
    cases hserving with
    | plain hplain =>
      by_cases hstat : m.stat = .disconnect
      · have htrue : leaves line.text = true := by
          by_contra hfalse
          exact hleaves.2 (by simpa using hfalse) m (by simp [hsent]) hstat
        rw [htrue, hstat]
        exact .gone hdialogue
      · have hfalse : leaves line.text = false := by
          by_contra htrue
          have hfarewell := hleaves.1 (by simpa using htrue)
          have hmem : m ∈ t.sent := by simp [hsent]
          rw [hfarewell, List.mem_singleton] at hmem
          simp [hmem] at hstat
        rw [hfalse, hprompt (by simpa [hstat] using hm)]
        exact .prompt (.ready hdialogue)
    | question q hq hstat =>
      have hmem : m ∈ t.sent := by simp [hsent]
      rw [hq, List.mem_singleton] at hmem
      exact absurd (hmem ▸ hstat) hne
    | approved q m' hq hstat hsaid hm' =>
      rw [hsent, hsaid] at hq
      cases hq
      rw [hprompt hm']
      exact .prompt (.ready hdialogue)

/-- Everything that the server writes arrives in one piece. -/
lemma length_writes {m : Message} (hm : m.body.length ≤ pipeBuf) {write : List Cell}
    (h : write ∈ m.writes) : write.length ≤ pipeBuf := by
  simp only [Message.writes, List.mem_cons, List.mem_ite_nil_left, List.not_mem_nil, or_false] at h
  rcases h with rfl | ⟨-, rfl⟩
  · simp [pipeBuf]
  · simpa using hm

lemma Unread.length_le {flight out : List (List Cell)} {client : Client} {rest : List Message}
    (h : Unread flight out client rest) (hrest : ∀ m, m ∈ rest → m.body.length ≤ pipeBuf)
    {write : List Cell} (hmem : write ∈ flight ++ out) : write.length ≤ pipeBuf := by
  cases h with
  | header hne h =>
    rw [h] at hmem
    obtain ⟨m, hm, hwrite⟩ := List.mem_flatMap.mp hmem
    exact length_writes (hrest m hm) hwrite
  | body hne hstat h =>
    rw [h] at hmem
    rcases List.mem_cons.mp hmem with rfl | hmem
    · simpa using hrest _ List.mem_cons_self
    · obtain ⟨m, hm, hwrite⟩ := List.mem_flatMap.mp hmem
      exact length_writes (hrest m (List.mem_cons_of_mem _ hm)) hwrite

/-- The server writes the next part of its messages. -/
lemma Unread.put {flight out : List (List Cell)} {write : List Cell} {client : Client}
    {rest : List Message} (h : Unread flight (write :: out) client rest) :
    Unread (flight ++ [write]) out client rest := by
  cases h with
  | header hne h => exact .header hne (by rw [← h]; simp)
  | body hne hstat h => exact .body hne hstat (by rw [← h]; simp)

lemma mapM_byteOf (body : Text) : (body.map Cell.byte).mapM byteOf = some body := by
  induction body with
  | nil => rfl
  | cons c body ih => simp [ih, byteOf]

/-- A step while a reply is under way. -/
lemma Phase.replying_step {s₀ s t : Session} {seen : List Seen} (h : Dialogue s₀ seen s)
    {k : Kernel} {line : CommandLine} {overwrite : Bool} {next : Next} {client : Client}
    {said rest : List Message} {flight out : List (List Cell)}
    (hserved : serverRequest k s line.text overwrite = some t)
    (hgood : Good k s line.text overwrite) (hsent : t.sent = said ++ rest)
    (hserving : Serving k s line.text t said overwrite next)
    (hunread : Unread flight out client rest) {a : Move} {l' : Link}
    (hst : linkStep ⟨client, [], flight.flatten, ⟨out, next⟩,
      seen ++ exchange line.text overwrite said⟩ a = some l') : Phase s₀ l' := by
  have hclient : client = .header ∨ ∃ stat dataSize, client = .body stat dataSize := by
    cases hunread with
    | header => exact .inl rfl
    | body => exact .inr ⟨_, _, rfl⟩
  cases a with
  | type | sendCommand | approve =>
    rcases hclient with rfl | ⟨stat, dataSize, rfl⟩ <;> simp [linkStep] at hst
  | readRequest | serve | readAnswer => simp [linkStep] at hst
  | put cells =>
    cases out with
    | nil => simp [linkStep] at hst
    | cons write out =>
      have hrest : ∀ m, m ∈ rest → m.body.length ≤ pipeBuf := fun m hm =>
        hgood.whole hserved m (by simp [hsent, hm])
      have hle := hunread.length_le hrest (List.mem_append_right flight List.mem_cons_self)
      simp only [linkStep] at hst
      split_ifs at hst with hall hpart
      · cases hst
        have hflat : flight.flatten ++ write = (flight ++ [write]).flatten := by simp
        rw [hflat]
        exact .replying h k line hserved hgood hsent hserving hunread.put
      · omega
  | readHeader =>
    cases hunread with
    | body => simp [linkStep] at hst
    | header hne hflight =>
      obtain ⟨m, rest, rfl⟩ := List.exists_cons_of_ne_nil hne
      cases flight with
      | nil =>
        rw [List.flatMap_cons, List.nil_append] at hflight
        have hout : out ≠ [] := by simp [hflight, Message.writes]
        simp only [linkStep, List.flatten_nil] at hst
        split at hst
        · rw [if_neg hout] at hst
          cases hst
        · cases hst
      | cons write flight =>
        rw [List.flatMap_cons, Message.writes, List.cons_append, List.cons_append] at hflight
        obtain ⟨rfl, hflight⟩ := List.cons.inj hflight
        simp only [linkStep, List.flatten_cons, List.singleton_append] at hst
        split_ifs at hst with hlast
        · have hbody : m.body = [] := by
            rcases hlast with hstat | hzero
            · obtain ⟨t', ht', hreplied, -⟩ := hgood
              obtain rfl := Option.some.inj (hserved.symm.trans ht')
              rw [hsent] at hreplied
              rcases hreplied.split with ⟨hm, -⟩ | hm | ⟨hm, -⟩
              · simp [hm] at hstat
              · simp [hm] at hstat
              · simpa [hstat] using hm
            · exact List.length_eq_zero_iff.mp hzero
          have hm : (⟨m.stat, []⟩ : Message) = m := by rw [← hbody]
          cases hst
          rw [hm]
          exact .heard h hserved hgood hsent hserving (by simpa [hbody] using hflight)
        · obtain ⟨hstat, hzero⟩ := not_or.mp hlast
          have hbody : m.body ≠ [] := fun hnil => hzero (by rw [hnil]; rfl)
          cases hst
          refine .replying h k line hserved hgood hsent hserving (.body hbody hstat ?_)
          simpa [hbody] using hflight
  | readBody =>
    cases hunread with
    | header => simp [linkStep] at hst
    | @body m rest hne hstat hflight =>
      cases flight with
      | nil => simp [linkStep] at hst
      | cons write flight =>
        rw [List.cons_append, List.cons.injEq] at hflight
        obtain ⟨rfl, hflight⟩ := hflight
        have htake : (m.body.map Cell.byte ++ flight.flatten).take m.body.length =
            m.body.map Cell.byte := List.take_left' (List.length_map _)
        have hdrop : (m.body.map Cell.byte ++ flight.flatten).drop m.body.length =
            flight.flatten := List.drop_left' (List.length_map _)
        have hread : linkStep ⟨.body m.stat m.body.length, [],
            m.body.map Cell.byte ++ flight.flatten, ⟨out, next⟩,
            seen ++ exchange line.text overwrite said⟩ .readBody =
            some ⟨afterMessage m.stat, [], flight.flatten, ⟨out, next⟩,
              seen ++ exchange line.text overwrite said ++ [.heard m]⟩ := by
          obtain ⟨c, cells, hcells⟩ :=
            List.exists_cons_of_ne_nil (l := m.body.map Cell.byte ++ flight.flatten) (by simp [hne])
          rw [hcells]
          simp only [linkStep]
          rw [← hcells, htake, hdrop, mapM_byteOf]
          simp
        rw [List.flatten_cons, hread] at hst
        cases hst
        exact .heard h hserved hgood hsent hserving hflight

/-- A complete reply with a question. -/
lemma Replied.question {overwrite : Bool} {ms : List Message} {q : Message}
    (h : Replied overwrite ms) (hq : q ∈ ms) (hstat : q.stat = .approve) :
    overwrite = false ∧ ms = [q] ∨
      overwrite = true ∧
        ∃ last : Message, ms = [q, last] ∧ (last.stat = .ok ∨ last.stat = .error) := by
  cases h with
  | final conts last hconts hlast =>
    rcases List.mem_append.mp hq with hq | hq
    · rw [hconts q hq] at hstat
      cases hstat
    · rw [← List.mem_singleton.mp hq] at hlast
      simp [hstat] at hlast
  | refused p hp ho =>
    rw [List.mem_singleton.mp hq]
    exact .inl ⟨ho, rfl⟩
  | approved p last hp ho hlast =>
    rcases List.mem_cons.mp hq with rfl | hq
    · exact .inr ⟨ho, last, rfl, hlast⟩
    · rw [← List.mem_singleton.mp hq] at hlast
      simp [hstat] at hlast

/-- A request is read and served. -/
lemma Phase.serve_step {s₀ s : Session} {seen : List Seen} (h : Dialogue s₀ seen s)
    {line : CommandLine} {k : Kernel} (hgood : Good k s line.text false) {l' : Link}
    (hst : linkStep ⟨.header, [.command line.text], [],
      ⟨[], .request s (line.text.length + 1)⟩, seen ++ [.typed line.text]⟩ (.serve k) = some l') :
    Phase s₀ l' := by
  obtain ⟨t, hserved, hreplied, -⟩ := id hgood
  obtain ⟨m, hm, -⟩ := hreplied.exists_not_cont
  have hne : t.sent ≠ [] := List.ne_nil_of_mem hm
  have hserving : Serving k s line.text t [] false
      (if t.sent.any isQuestion then .asking k s line.text t.sent
        else if leaves line.text then .closed else .ready t) := by
    by_cases hany : t.sent.any isQuestion = true
    · rw [if_pos hany]
      obtain ⟨q, hq, hstat⟩ := List.any_eq_true.mp hany
      rw [isQuestion, decide_eq_true_eq] at hstat
      rcases hreplied.question hq hstat with ⟨-, hsent⟩ | ⟨ho, -⟩
      · exact .question q hsent hstat
      · cases ho
    · rw [if_neg hany]
      refine .plain fun q hq hstat => hany (List.any_eq_true.mpr ⟨q, hq, ?_⟩)
      simp [isQuestion, hstat]
  simp only [linkStep, ChildServer.serve, hserved, Option.map_some] at hst
  rw [if_pos trivial] at hst
  cases hst
  have hunread : Unread [] (t.sent.flatMap Message.writes) .header t.sent := .header hne rfl
  exact .replying h k line hserved hgood rfl hserving hunread

/-- An approval is read. -/
lemma Phase.approved_step {s₀ s t : Session} {seen : List Seen} (h : Dialogue s₀ seen s)
    {k : Kernel} {line : CommandLine} {q : Message}
    (hserved : serverRequest k s line.text false = some t) (hsent : t.sent = [q])
    (hq : q.stat = .approve) (hgood : Good k s line.text true) {l' : Link}
    (hst : linkStep ⟨.header, [.answer true], [], ⟨[], .asking k s line.text t.sent⟩,
      seen ++ [.typed line.text, .heard q, .answered true]⟩ .readAnswer = some l') :
    Phase s₀ l' := by
  obtain ⟨t', hserved', hreplied, -⟩ := id hgood
  have hmem : q ∈ t'.sent := by
    have hpart := serverRequest_prefix hserved hserved'
    rw [hsent] at hpart
    exact hpart.subset List.mem_cons_self
  rcases hreplied.question hmem hq with ⟨ho, -⟩ | ⟨-, last, hsent', hlast⟩
  · cases ho
  · simp only [linkStep, ChildServer.resume, hserved', Option.map_some] at hst
    cases hst
    have hsaid : seen ++ [.typed line.text, .heard q, .answered true] =
        seen ++ exchange line.text true [q] := by simp [exchange, heardWith, hq]
    have hunread : Unread [] ([last].flatMap Message.writes) .header [last] :=
      .header (by simp) rfl
    rw [hsaid, hsent, hsent']
    exact .replying h k line hserved' hgood hsent' (.approved q last hsent' hq rfl hlast) hunread

/-- A waiting server makes a step while the client is elsewhere. -/
lemma Waits.phase_step {s₀ s : Session} {seen seen' : List Seen} {server : ChildServer}
    {front extra : List Packet} {client : Client} (h : Waits s₀ seen s server front)
    (hready : Waits s₀ seen s ⟨[], .ready s⟩ [] →
      Phase s₀ ⟨client, extra, [], ⟨[], .ready s⟩, seen'⟩)
    (hrequest : ∀ n rest, extra = .header n :: rest → Dialogue s₀ seen s →
      Phase s₀ ⟨client, rest, [], ⟨[], .request s n⟩, seen'⟩) {a : Move}
    (ha : a = .readRequest ∨ (∃ k, a = .serve k) ∨ (∃ n, a = .put n) ∨ a = .readAnswer)
    {l' : Link} (hst : linkStep ⟨client, front ++ extra, [], server, seen'⟩ a = some l') :
    Phase s₀ l' := by
  obtain ⟨hdialogue, ⟨n, rest, -, hextra, rfl⟩ | rfl⟩ := h.step ha hst
  · exact hrequest n rest hextra hdialogue
  · exact hready (.ready hdialogue)

/-- Every step leads from one state of a session to another. -/
theorem Phase.step {s₀ : Session} {l l' : Link} {a : Move} (h : Phase s₀ l) (hok : Answered l a)
    (hst : linkStep l a = some l') : Phase s₀ l' := by
  cases h with
  | @prompt s seen server front h =>
    cases a with
    | type line =>
      cases hst
      exact .writing h line
    | sendCommand | readHeader | readBody | approve => simp [linkStep] at hst
    | _ =>
      rw [← List.append_nil front] at hst
      refine h.phase_step (fun h => .prompt h) (fun n rest hextra => ?_) (by simp) hst
      cases hextra
  | writing h line =>
    cases a with
    | sendCommand =>
      cases hst
      rw [List.append_assoc]
      exact .written h line
    | type | readHeader | readBody | approve => simp [linkStep] at hst
    | _ =>
      refine h.phase_step (fun h => .writing h line) (fun n rest hextra hdialogue => ?_) (by simp)
        hst
      cases hextra
      exact .writingRead hdialogue line
  | writingRead h line =>
    cases a with
    | sendCommand =>
      cases hst
      exact .writtenRead h line
    | _ => simp [linkStep] at hst
  | written h line =>
    cases a with
    | readHeader => cases h <;> simp [linkStep] at hst
    | type | sendCommand | readBody | approve => simp [linkStep] at hst
    | _ =>
      refine h.phase_step (fun h => .written h line) (fun n rest hextra hdialogue => ?_) (by simp)
        hst
      cases hextra
      exact .writtenRead hdialogue line
  | writtenRead h line =>
    cases a with
    | serve k => exact .serve_step h (hok _ _ _ _ rfl rfl) hst
    | _ => simp [linkStep] at hst
  | replying h k line hserved hgood hsent hserving hunread =>
    exact .replying_step h hserved hgood hsent hserving hunread hst
  | asked h k line q hgood hserved hsent hq =>
    cases a with
    | approve resp =>
      cases hst
      by_cases hyes : resp = some true
      · subst hyes
        have happroved := Phase.approved h k line q hserved hsent hq
        simpa using happroved
      · have hno : resp.getD false = false := by
          rcases resp with - | - | - <;> simp_all
        have hdialogue := Dialogue.request h k line false hserved
        have hprompt : Phase s₀ ⟨.prompt, [.answer false], [], ⟨[], .asking k _ line.text _⟩, _⟩ :=
          .prompt (.refused hdialogue hserved hgood)
        simpa [hyes, hno, exchange, heardWith, hsent, hq] using hprompt
    | _ => simp [linkStep] at hst
  | approved h k line q hserved hsent hq =>
    cases a with
    | readAnswer => exact .approved_step h hserved hsent hq (hok _ _ _ _ _ _ rfl rfl) hst
    | _ => simp [linkStep] at hst
  | gone h => cases a <;> simp [linkStep] at hst

/-- The moves of the user. -/
def Move.user : Move → Bool
  | .type _ | .approve _ => true
  | _ => false

/-- The client or the server can go on; or a request, or an approval, is to be served, and
with a good reply the server can go on. -/
def GoesForward (l : Link) : Prop :=
  (∃ a : Move, a.user = false ∧ Answered l a ∧ (linkStep l a).isSome = true) ∨
  (∃ s cmd, l.server = ⟨[], .request s (cmd.length + 1)⟩ ∧ l.toServer = [.command cmd] ∧
    ∀ k, Good k s cmd false → (linkStep l (.serve k)).isSome = true) ∨
  ∃ k s cmd asked, l.server = ⟨[], .asking k s cmd asked⟩ ∧ l.toServer = [.answer true] ∧
    (Good k s cmd true → (linkStep l .readAnswer).isSome = true)

lemma Good.served {k : Kernel} {s : Session} {cmd : Text} {overwrite : Bool}
    (h : Good k s cmd overwrite) : ∃ t, serverRequest k s cmd overwrite = some t := by
  obtain ⟨t, ht, -⟩ := h
  exact ⟨t, ht⟩

/-- A message that is under way is written, or read. -/
lemma Unread.goes_forward {flight out : List (List Cell)} {client : Client}
    {rest : List Message} (h : Unread flight out client rest) (next : Next) (seen : List Seen) :
    ∃ a : Move, a.user = false ∧ Answered ⟨client, [], flight.flatten, ⟨out, next⟩, seen⟩ a ∧
      (linkStep ⟨client, [], flight.flatten, ⟨out, next⟩, seen⟩ a).isSome = true := by
  have hput : flight = [] → flight ++ out ≠ [] → ∃ a : Move, a.user = false ∧
      Answered ⟨client, [], flight.flatten, ⟨out, next⟩, seen⟩ a ∧
      (linkStep ⟨client, [], flight.flatten, ⟨out, next⟩, seen⟩ a).isSome = true := by
    rintro rfl hne
    obtain ⟨write, out, rfl⟩ := List.exists_cons_of_ne_nil hne
    exact ⟨.put write.length, rfl, trivial, by simp [linkStep]⟩
  cases h with
  | header hne h =>
    obtain ⟨m, rest, rfl⟩ := List.exists_cons_of_ne_nil hne
    cases flight with
    | nil => exact hput rfl (by simp [h, Message.writes])
    | cons write flight =>
      rw [List.flatMap_cons, Message.writes, List.cons_append, List.cons_append] at h
      obtain ⟨rfl, -⟩ := List.cons.inj h
      refine ⟨.readHeader, rfl, trivial, ?_⟩
      simp only [linkStep, List.flatten_cons, List.singleton_append]
      split_ifs <;> rfl
  | @body m rest hne hstat h =>
    cases flight with
    | nil => exact hput rfl (by simp [h])
    | cons write flight =>
      rw [List.cons_append, List.cons.injEq] at h
      obtain ⟨rfl, -⟩ := h
      obtain ⟨c, cells, hcells⟩ :=
        List.exists_cons_of_ne_nil (l := (m.body.map Cell.byte :: flight).flatten) (by simp [hne])
      refine ⟨.readBody, rfl, trivial, ?_⟩
      rw [hcells]
      simp only [linkStep]
      split
      · split_ifs <;> rfl
      · rfl

/-- While the client waits for a reply, something can be done. -/
lemma Phase.goes_forward {s₀ : Session} {l : Link} (h : Phase s₀ l) (hprompt : l.client ≠ .prompt)
    (happroving : l.client ≠ .approving) (hgone : l.client ≠ .disconnected) : GoesForward l := by
  cases h with
  | prompt h => exact absurd rfl hprompt
  | writing h line => exact .inl ⟨.sendCommand, rfl, trivial, rfl⟩
  | writingRead h line => exact .inl ⟨.sendCommand, rfl, trivial, rfl⟩
  | written h line =>
    cases h with
    | ready h => exact .inl ⟨.readRequest, rfl, trivial, rfl⟩
    | refused h hserved hgood =>
      refine .inl ⟨.readAnswer, rfl, fun k s cmd asked yesOrNo packets hserver hpackets => ?_, ?_⟩
      · cases hserver
        cases hpackets
        exact hgood
      · simp [linkStep, ChildServer.resume, hserved]
  | writtenRead h line =>
    refine .inr (.inl ⟨_, line.text, rfl, rfl, fun k hgood => ?_⟩)
    obtain ⟨t, ht⟩ := hgood.served
    simp [linkStep, ChildServer.serve, ht]
  | replying h k line hserved hgood hsent hserving hunread =>
    exact .inl (hunread.goes_forward _ _)
  | asked h k line q hgood hserved hsent hq => exact absurd rfl happroving
  | approved h k line q hserved hsent hq =>
    refine .inr (.inr ⟨k, _, line.text, _, rfl, rfl, fun hgood => ?_⟩)
    obtain ⟨t, ht⟩ := hgood.served
    simp [linkStep, ChildServer.resume, ht]
  | gone h => exact absurd rfl hgone

/-- In every run in which the requests that are served get good replies, the client is never
out of step. At its prompt, and when it has been sent away, all messages have been read, and
what the user has seen is a sequence of whole exchanges, each with the messages that the
server sends for the command by itself, in the session that the one before has left. The
server then waits for the next request, but for the answer no, or has left its loop. While
the client waits for a reply the two do not block each other. -/
theorem session_sequential {s₀ : Session} {l : Link}
    (hr : Reach linkStep Answered (connected s₀) l) :
    l.client ≠ .lost ∧
    (l.client = .prompt → l.toClient = [] ∧ ∃ s, Dialogue s₀ l.seen s ∧
      (l.server = ⟨[], .ready s⟩ ∧ l.toServer = [] ∨
        ∃ k s' cmd, l.server = ⟨[], .asking k s' cmd s.sent⟩ ∧ l.toServer = [.answer false] ∧
          serverRequest k s' cmd false = some s)) ∧
    (l.client = .disconnected → l.toClient = [] ∧ l.toServer = [] ∧ l.server = ⟨[], .closed⟩ ∧
      ∃ s, Dialogue s₀ l.seen s) ∧
    (l.client ≠ .prompt → l.client ≠ .approving → l.client ≠ .disconnected → GoesForward l) := by
  have h : Phase s₀ l := hr.invariant (phase_connected s₀) fun _ _ _ h hok hst => h.step hok hst
  refine ⟨?_, ?_, ?_, h.goes_forward⟩
  · cases h with
    | replying h k line hserved hgood hsent hserving hunread => cases hunread <;> simp
    | _ => simp
  · intro hprompt
    cases h with
    | prompt h =>
      cases h with
      | ready h => exact ⟨rfl, _, h, .inl ⟨rfl, rfl⟩⟩
      | refused h hserved hgood => exact ⟨rfl, _, h, .inr ⟨_, _, _, rfl, rfl, hserved⟩⟩
    | replying h k line hserved hgood hsent hserving hunread =>
      cases hunread <;> cases hprompt
    | _ => cases hprompt
  · intro hgone
    cases h with
    | gone h => exact ⟨rfl, rfl, rfl, _, h⟩
    | replying h k line hserved hgood hsent hserving hunread =>
      cases hunread <;> cases hgone
    | _ => cases hgone

/-- The server of a directory that has the file `f`. -/
def overwritten : Kernel :=
  ⟨['d'], ['c'], [['f']], fun _ => some ⟨1, [['o']], false, by decide, by decide, by decide⟩,
    fun _ _ => none, fun _ => false, fun _ => true, fun _ => true, true, true, true, true,
    fun _ n => some n, fun _ => true, true, 0⟩

def newSession : Session := ⟨[], ⟨[], numOfDirFile⟩, [], []⟩

/-- The client is asked whether to overwrite `f`, and gets a reply when it says so. -/
lemma good_upload (overwrite : Bool) :
    Good overwritten newSession "upload f".toList overwrite := by
  cases overwrite
  · exact ⟨_, rfl, .refused _ rfl rfl, whole_singleton.mpr (by decide)⟩
  · have hwhole : Whole [⟨.approve, cString (approveQuestion ['f'])⟩,
        ⟨.ok, cString (bytesTransferred 1)⟩] := by
      refine List.forall_mem_cons.mpr ⟨by decide, whole_singleton.mpr (by decide)⟩
    exact ⟨_, rfl, .approved _ _ rfl rfl (.inl rfl), hwhole⟩

/-- A client uploads `f`, approves that it is overwritten, and is back at its prompt. -/
theorem upload_sequential : ∃ l : Link, l.client = .prompt ∧ l.toClient = [] ∧
    l.seen = [.typed "upload f".toList, .heard ⟨.approve, cString (approveQuestion ['f'])⟩,
      .answered true, .heard ⟨.ok, cString (bytesTransferred 1)⟩] ∧
    ∃ s, Dialogue newSession l.seen s := by
  have htyped : Reach linkStep Answered (connected newSession) _ :=
    Reach.start.next (a := .type ⟨"upload f".toList, by decide, by decide, by decide⟩) trivial rfl
  have hread := (htyped.next (a := .sendCommand) trivial rfl).next (a := .readRequest) trivial rfl
  have hserved := hread.next (a := .serve overwritten)
    (fun s dataSize cmd packets hserver hpackets => by
      cases hserver
      cases hpackets
      exact good_upload false) rfl
  have hasked := (hserved.next (a := .put 1) trivial rfl).next (a := .readHeader) trivial rfl
  have happroved := ((hasked.next (a := .put (cString (approveQuestion ['f'])).length) trivial
    rfl).next (a := .readBody) trivial rfl).next (a := .approve (some true)) trivial rfl
  have hanswered := happroved.next (a := .readAnswer)
    (fun k s cmd asked yesOrNo packets hserver hpackets => by
      cases hserver
      cases hpackets
      exact good_upload true) rfl
  have hheader := (hanswered.next (a := .put 1) trivial rfl).next (a := .readHeader) trivial rfl
  have hdone := (hheader.next (a := .put (cString (bytesTransferred 1)).length) trivial
    rfl).next (a := .readBody) trivial rfl
  obtain ⟨hempty, s, hdialogue, -⟩ := (session_sequential hdone).2.1 rfl
  exact ⟨_, rfl, hempty, rfl, s, hdialogue⟩

end SystemProgramming.FileServer
