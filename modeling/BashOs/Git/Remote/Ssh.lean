import BashOs.Lib.CString

/-!
The far end of a conversation: what a URL names, and for one over ssh what ssh is told to reach and to run there.
-/

namespace BashOs.Git.Remote
open BashOs.Lib List Option

/-! ## Reading a URL -/

def urlIsHttp (url : Bytes) : Bool := (ascii "http://").isPrefixOf url || (ascii "https://").isPrefixOf url

def urlIsSsh (url : Bytes) : Bool :=
  if (ascii "ssh://").isPrefixOf url then true
  else if (cutAt (ascii "://") url).isSome then false
  else if url.head? = some 0x5b then (cutAt (ascii "]:") url).isSome
  -- a colon that stands before any slash
  else (url.takeWhile (· ≠ 0x2f)).contains 0x3a

/-- `struct git_ssh_far` -/
structure SshFar where
  host : Bytes
  port : Bytes
  path : Bytes
deriving DecidableEq

def cutPort (host : Bytes) : Bytes × Bytes :=
  let (front, back) := if 0x5d ∈ host then (host.takeWhile (· ≠ 0x5d), host.dropWhile (· ≠ 0x5d)) else ([], host)
  if 0x3a ∈ back then (front ++ beforeLast 0x3a back, (afterLast 0x3a back).take 15) else (host, [])

/-- The last step of `git_ssh_parse`: ssh takes the address in the brackets itself. -/
def unbracket (host : Bytes) : Bytes :=
  if host.head? = some 0x5b ∧ 0x5d ∈ host then (host.takeWhile (· ≠ 0x5d)).tail else host

/-- The path over there: `/~` stands for the home directory, which the far end makes of a leading tilde. -/
def sshPath (path : Bytes) : Bytes :=
  let path := if path = [] then ascii "/" else path
  (if (ascii "/~").isPrefixOf path then path.tail else path).take 4095

/-- The two forms of `git_ssh_parse`: host as the URL has it, port and path. -/
def sshParts (url : Bytes) : Option SshFar :=
  if (ascii "ssh://").isPrefixOf url then
    let named := url.drop 6
    let host := named.takeWhile (· ≠ 0x2f)
    if 512 ≤ host.length then none
    else some ⟨(cutPort host).1, (cutPort host).2, sshPath (named.dropWhile (· ≠ 0x2f))⟩
  else
    let parts :=
      if url.head? = some 0x5b then (cutAt (ascii "]:") url).map fun (address, path) => (address ++ [0x5d], path)
      else cutAt [0x3a] url
    parts.bind fun (host, path) => if 512 ≤ host.length then none else some ⟨host, [], path.take 4095⟩

def sshParse (url : Bytes) : Option SshFar :=
  (sshParts url).bind fun far =>
    let host := unbracket far.host
    if host = [] then none else some { far with host }

/-! ## Running ssh -/

/-- The rest of a quoted word once `used` bytes of the buffer are. -/
def quoteFrom (outsz : Nat) : Nat → Bytes → Option Bytes
  | used, [] => if outsz < used + 2 then none else some [0x27]
  | used, b :: rest =>
    let shown := if b = 0x27 then ascii "'\\''" else [b]
    if outsz ≤ used + shown.length then none else (quoteFrom outsz (used + shown.length) rest).map (shown ++ ·)

def sqQuote (outsz : Nat) (word : Bytes) : Option Bytes :=
  if outsz ≤ 1 then none else (quoteFrom outsz 1 word).map (0x27 :: ·)

/-- `GIT_SSH_COMMAND` and `core.sshCommand` -/
structure SshSettings where
  environment : Option Bytes
  config : Option Bytes

def SshSettings.command (settings : SshSettings) : Option Bytes :=
  (settings.environment.filter (· ≠ [])).or (settings.config.filter (· ≠ []))

def sshIsOpenssh (command : Bytes) : Bool :=
  afterLast 0x2f (command.takeWhile fun b => b ≠ 0x20 ∧ b ≠ 0x09) = ascii "ssh"

/-- How ssh is started: the arguments are the options, the host and the command for the far end's shell. -/
structure SshRun where
  script : Bytes
  options : List Bytes
  host : Bytes
  command : Bytes
deriving DecidableEq

inductive Connection where
  | http (url : Bytes)
  | ssh (run : SshRun)
  | here (script path : Bytes)
  | fatal (message : Bytes)
deriving DecidableEq

/-- What ssh is told besides the host and the command; nothing for a port that the command cannot be told of. -/
def sshOptions (command : Option Bytes) (port : Bytes) : Option (List Bytes) :=
  let openssh := (command.map sshIsOpenssh).getD false
  let carried := match command with
    | none => [ascii "--setenv", ascii "GIT_PROTOCOL=version=2"]
    | some _ => if openssh then [ascii "-o", ascii "SendEnv=GIT_PROTOCOL"] else []
  if port = [] then some carried
  else if command.isSome && !openssh then none
  else some (carried ++ [ascii "-p", port])

/-- `git_conn_open` up to where the far end is started. `service` begins with `git-`. -/
def connOpen (settings : SshSettings) (url : Bytes) (program : Option Bytes) (service : Bytes) : Connection :=
  if urlIsHttp url then .http ((url.take 4095).reverse.dropWhile (· = 0x2f)).reverse
  else if urlIsSsh url then
    match sshParse url with
    | none => .fatal (ascii "bad ssh address '" ++ url ++ ascii "'")
    | some far =>
      match sqQuote 4200 far.path with
      | none => .fatal (ascii "the path is too long for the far end")
      | some quoted =>
        match sshOptions settings.command far.port with
        | none => .fatal (ascii "ssh variant 'simple' does not support setting port")
        | some options =>
          .ssh {
            script := (settings.command.getD (ascii "builtin ssh run") ++ ascii " \"$@\"").take 4095
            options
            host := far.host
            command := (program.getD service ++ 0x20 :: quoted).take 4399 }
  else
    .here ((program.getD ((ascii "builtin git " ++ service.drop 4).take 63) ++ ascii " \"$@\"").take 4095) url

/-! ## Whether the host is taken for an option -/

def addressOf (url : Bytes) : Bytes := if (ascii "ssh://").isPrefixOf url then url.drop 6 else url

def bracketed (url : Bytes) : Bytes :=
  if (ascii "ssh://").isPrefixOf url then (url.drop 6).takeWhile (· ≠ 0x2f) else url

def DashFree (url : Bytes) : Prop :=
  (addressOf url).head? ≠ some 0x2d ∧ ¬ ((ascii "[-").isPrefixOf (addressOf url) ∧ 0x5d ∈ bracketed url)

instance (url : Bytes) : Decidable (DashFree url) := inferInstanceAs (Decidable (_ ∧ _))

variable {url host named : Bytes} {far : SshFar}

theorem head_of_bracket (opened : ascii "[-" <+: named) : named.head? = some 0x5b := by
  obtain ⟨rest, rfl⟩ := opened
  rfl

theorem unbracket_head (start : host <+: named) (full : unbracket host ≠ []) : (unbracket host).head? = some 0x2d ↔
      named.head? = some 0x2d ∨ (ascii "[-").isPrefixOf named ∧ 0x5d ∈ host := by
  obtain ⟨rest, rfl⟩ := start
  rw [ isPrefixOf_iff_prefix]
  cases host with
  | nil => exact (full rfl).elim
  | cons first more =>
    unfold unbracket at full ⊢
    by_cases brackets : (first :: more).head? = some 0x5b ∧ 0x5d ∈ first :: more
    · rw [if_pos brackets] at full ⊢
      obtain ⟨opened, closed⟩ := brackets
      cases opened
      -- the brackets hold something, and it begins with the URL's second character
      cases more with
      | nil => simp at full
      | cons second more =>
        by_cases empty : second = 0x5d
        · simp [empty] at full
        · have close : 0x5d ∈ 0x5b :: second :: more := closed
          simpa [empty, ascii, close] using eq_comm
    · rw [if_neg brackets]
      have unclosed : first = 0x5b → 0x5d ∉ first :: more := fun same => by simpa [same] using brackets
      constructor
      · exact .inl
      · rintro (dash | ⟨opened, closed⟩)
        · exact dash
        · have same : first = 0x5b := by simpa using head_of_bracket opened
          exact (unclosed same closed).elim

theorem cutPort_begins (host : Bytes) : (cutPort host).1 <+: host := by
  unfold cutPort
  split
  next front back parts =>
    have whole : front ++ back = host := by
      split at parts
      · cases parts; exact takeWhile_append_dropWhile
      · cases parts; rfl
    split
    · rw [← whole]
      exact (prefix_append_right_inj front).2 (beforeLast_begins _ _)
    · exact prefix_refl host

theorem close_mem_cutPort (closed : 0x5d ∈ host) : 0x5d ∈ (cutPort host).1 := by
  unfold cutPort
  rw [if_pos closed]
  dsimp only
  split
  next colon =>
    apply mem_append_right
    have stops : host.dropWhile (· ≠ 0x5d) ≠ [] := ne_nil_of_mem colon
    obtain ⟨first, rest, split⟩ := exists_cons_of_ne_nil stops
    have close : first = 0x5d := by
      have stop := List.head?_dropWhile_not (· ≠ 0x5d) host
      rw [split] at stop
      simpa using stop
    subst close
    rw [split] at colon ⊢
    rw [beforeLast_cons (by simpa using colon)]
    exact mem_cons_self
  · exact closed

theorem sshParts_host (parsed : sshParts url = some far) :
    far.host <+: addressOf url ∧
      ((ascii "[-").isPrefixOf (addressOf url) → (0x5d ∈ far.host ↔ 0x5d ∈ bracketed url)) := by
  unfold sshParts at parsed
  unfold addressOf bracketed
  by_cases full : (ascii "ssh://").isPrefixOf url
  · rw [if_pos full] at parsed ⊢
    rw [if_pos full]
    dsimp only at parsed
    split at parsed
    · cases parsed
    cases parsed
    constructor
    · exact (cutPort_begins _).trans <| takeWhile_prefix _
    · intro _
      exact ⟨fun member => (cutPort_begins _).subset member, close_mem_cutPort⟩
  rw [if_neg full] at parsed ⊢
  rw [if_neg full]
  obtain ⟨⟨host, path⟩, cut, parsed⟩ := bind_eq_some_iff.1 parsed
  dsimp only at parsed
  split at parsed
  · cases parsed
  cases parsed
  split at cut
  next opened =>
    obtain ⟨⟨address, path'⟩, cut, same⟩ := map_eq_some_iff.1 cut
    cases same
    have whole := (cutAt_spec cut).1
    have start : address ++ [0x5d] <+: url := ⟨0x3a :: path, by rw [whole]; simp [ascii]⟩
    refine ⟨start, fun _ => ⟨fun member => start.subset member, fun _ => by simp⟩⟩
  next plain =>
    have whole := (cutAt_spec cut).1
    refine ⟨⟨[0x3a] ++ path, by rw [whole, append_assoc]⟩, fun opened => ?_⟩
    have bracket := isPrefixOf_iff_prefix.1 opened
    exact (plain (head_of_bracket bracket)).elim

theorem sshParse_host (parsed : sshParse url = some far) : far.host.head? ≠ some 0x2d ↔ DashFree url := by
  obtain ⟨parts, read, parsed⟩ := bind_eq_some_iff.1 parsed
  dsimp only at parsed
  split at parsed
  · cases parsed
  rename_i full
  cases parsed
  obtain ⟨start, close⟩ := sshParts_host read
  rw [ne_eq, unbracket_head start full, not_or]
  apply and_congr_right
  intro _
  apply not_congr
  exact and_congr_right close

/-- The host argument of ssh begins with no dash just if the address does not. -/
theorem ssh_host_option_iff {settings : SshSettings} {program : Option Bytes} {service : Bytes} {run : SshRun}
    (opened : connOpen settings url program service = .ssh run) : run.host.head? ≠ some 0x2d ↔ DashFree url := by
  unfold connOpen at opened
  split at opened
  · cases opened
  split at opened
  · split at opened
    · cases opened
    rename_i far parsed
    split at opened
    · cases opened
    split at opened
    · cases opened
    cases opened
    exact sshParse_host parsed
  · cases opened

/-- `host:path` reaches `host`. -/
theorem ssh_host_plain :
    ∃ run, connOpen ⟨none, none⟩ (ascii "host:path") none (ascii "git-upload-pack") = .ssh run ∧
      run.host.head? ≠ some 0x2d := by
  have opened : connOpen ⟨none, none⟩ (ascii "host:path") none (ascii "git-upload-pack") = .ssh
      { script := ascii "builtin ssh run \"$@\"", options := [ascii "--setenv", ascii "GIT_PROTOCOL=version=2"],
        host := ascii "host", command := ascii "git-upload-pack 'path'" } := by
    decide +kernel
  exact ⟨_, opened, (ssh_host_option_iff opened).2 (by decide)⟩

/-- An address that begins with a dash, in either form and with or without brackets, becomes an option. -/
theorem ssh_host_dash :
    (urlIsSsh (ascii "-oProxyCommand=x:p") ∧ sshParse (ascii "-oProxyCommand=x:p") =
      some ⟨ascii "-oProxyCommand=x", [], ascii "p"⟩) ∧
    (urlIsSsh (ascii "ssh://[-oProxyCommand=x]/p") ∧ sshParse (ascii "ssh://[-oProxyCommand=x]/p") =
      some ⟨ascii "-oProxyCommand=x", [], ascii "/p"⟩) ∧
    connOpen ⟨none, some (ascii "ssh")⟩ (ascii "-oProxyCommand=x:p") none (ascii "git-upload-pack") = .ssh
      { script := ascii "ssh \"$@\"", options := [ascii "-o", ascii "SendEnv=GIT_PROTOCOL"],
        host := ascii "-oProxyCommand=x", command := ascii "git-upload-pack 'p'" } := by
  decide +kernel

end BashOs.Git.Remote
