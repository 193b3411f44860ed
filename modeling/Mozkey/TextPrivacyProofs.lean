import Mozkey.ContextualRerankerProofs
import Mozkey.SubstringProofs

/-! # Text privacy — what a live text or a context must not show

    A text is cut into ASCII tokens; an address of four numbers and a long run of digits make it
    sensitive, a version number does not.  The version number is looked for before the run of
    digits is counted, so a run within one passes. -/

namespace MozkeyPrivacy

open ByteString MozkeyReranker

/-! ## Characters and substrings -/

/-- `IsAsciiAlpha`. -/
def isAsciiAlpha (c : UInt8) : Bool :=
  (chr 'a' ≤ c && c ≤ chr 'z') || (chr 'A' ≤ c && c ≤ chr 'Z')

/-- `IsAsciiDigit`. -/
def isAsciiDigit (c : UInt8) : Bool := chr '0' ≤ c && c ≤ chr '9'

/-- `IsAsciiAlnum`. -/
def isAsciiAlnum (c : UInt8) : Bool := isAsciiAlpha c || isAsciiDigit c

/-- `IsAsciiHexDigit`. -/
def isAsciiHexDigit (c : UInt8) : Bool :=
  isAsciiDigit c || (chr 'a' ≤ c && c ≤ chr 'f') || (chr 'A' ≤ c && c ≤ chr 'F')

/-- What the tokens consist of. -/
def isAsciiTokenChar (c : UInt8) : Bool :=
  isAsciiAlnum c || c == chr '_' || c == chr '-' || c == chr '.'

/-- `ToLowerAscii`. -/
def toLowerAscii (text : Bytes) : Bytes :=
  text.map fun c => if chr 'A' ≤ c ∧ c ≤ chr 'Z' then c - chr 'A' + chr 'a' else c

/-- `ContainsAsciiSubstring` for one of several words. -/
def containsAny (text : Bytes) (words : List String) : Bool :=
  words.any fun word => Substring.contains (ja word) text

/-- Does a text have what URLs and domains have? -/
def looksLikeLiveUrlOrDomain (text : Bytes) : Bool :=
  let lower := toLowerAscii text
  containsAny lower ["://", "www."] ||
    containsAny lower [".com", ".net", ".org", ".jp", ".co.jp", ".io", ".dev", ".app", ".local",
      ".localhost"]

/-- `LooksLikeLiveEmail`. -/
def looksLikeLiveEmail (text : Bytes) : Bool := text.contains (chr '@')

/-- Does a text look like a path of a file? -/
def looksLikeLivePath (text : Bytes) : Bool :=
  let lower := toLowerAscii text
  text.contains (chr '\\') ||
    (match lower with
      | [] | [_] | [_, _] => false
      | drive :: colon :: slash :: _ =>
        isAsciiAlpha drive && colon == chr ':' && (slash == chr '\\' || slash == chr '/')) ||
    (ascii "/").isPrefixOf lower || (ascii "~/").isPrefixOf lower ||
    containsAny lower ["../", "./"]

/-- Does a text have the prefix of a known kind of key? -/
def looksLikeLiveKnownSecretPrefix (text : Bytes) : Bool :=
  containsAny (toLowerAscii text)
    ["ghp_", "github_pat_", "glpat-", "sk-", "xoxb-", "xoxp-", "ya29.", "akia", "bearer "]

/-- Words of credentials, in what is being typed. -/
def containsLiveSensitiveCredentialWord (text : Bytes) : Bool :=
  containsAny (toLowerAscii text)
    ["password", "passwd", "passphrase", "secret", "token", "apikey", "api_key", "credential",
      "privatekey", "private_key", "authorization"] ||
  containsAny text
    ["パスワード", "暗証番号", "認証コード", "認証番号", "秘密鍵", "秘密キー", "トークン",
      "アクセストークン", "APIキー", "apiキー"]

/-- Words of credentials, in the text before. -/
def containsHistoricalContextCredentialWord (text : Bytes) : Bool :=
  containsAny (toLowerAscii text)
    ["password", "passwd", "pwd", "token", "secret", "apikey", "api_key", "authorization",
      "bearer ", "cookie", "sessionid", "session_id"]

/-! ## Addresses and version numbers -/

/-- The digits of a group of an address, from the value of the ones before; what follows them,
    unless the value gets past 255. -/
def ipv4Group : Nat → Bytes → Option Bytes
  | _, [] => some []
  | value, c :: rest =>
    if isAsciiDigit c then
      if value * 10 + (c.toNat - 48) > 255 then none
      else ipv4Group (value * 10 + (c.toNat - 48)) rest
    else some (c :: rest)

/-- The loop of `IsIpv4LikeAsciiToken` when so many groups are still to come. -/
def ipv4Loop : Nat → Bytes → Bool
  | 0, _ => false
  | _ + 1, [] => false
  | groups + 1, c :: token =>
    match ipv4Group 0 (c :: token) with
    | none => false
    | some rest =>
      if rest = c :: token then false
      else if groups = 0 then rest.isEmpty
      else rest.head? == some (chr '.') && ipv4Loop groups rest.tail

/-- Four numbers with dots between them. -/
def isIpv4LikeAsciiToken (token : Bytes) : Bool := ipv4Loop 4 token

/-- `consume_digits`: what follows the digits, if there are any. -/
def consumeDigits (token : Bytes) : Option Bytes :=
  match token with
  | [] => none
  | c :: rest => if isAsciiDigit c then some (rest.dropWhile isAsciiDigit) else none

/-- The loop of `IsVersionLikeAsciiToken` over the groups behind the first, when so many are still
    allowed. -/
def versionLoop : Nat → Bytes → Option Bytes
  | 0, token => if token.head? = some (chr '.') then none else some token
  | left + 1, token =>
    if token.head? = some (chr '.') then (consumeDigits token.tail).bind (versionLoop left)
    else some token

/-- The end of `IsVersionLikeAsciiToken`: a hyphen with letters and digits, or nothing. -/
def isVersionSuffix (token : Bytes) : Bool :=
  if token.head? = some (chr '-') then
    if token.tail.head?.any isAsciiAlpha then
      ((token.tail.dropWhile isAsciiAlpha).dropWhile isAsciiDigit).isEmpty
    else false
  else token.isEmpty

/-- What follows the letter that may begin a version number. -/
def versionBody (token : Bytes) : Bytes :=
  if token.head? = some (chr 'v') ∨ token.head? = some (chr 'V') then token.tail else token

/-- Numbers with dots, as in a version. -/
def isVersionLikeAsciiToken (token : Bytes) : Bool :=
  if token.isEmpty then false
  else
    match consumeDigits (versionBody token) with
    | none => false
    | some rest =>
      match versionLoop 3 rest with
      | none => false
      | some suffix => if rest.head? = some (chr '.') then isVersionSuffix suffix else false

/-! ## Long tokens -/

/-- What the loop over a token counts. -/
structure TokenScan where
  longestDigitRun : Nat := 0
  currentDigitRun : Nat := 0
  hasAlpha : Bool := false
  hasDigit : Bool := false
  hasSymbol : Bool := false
  allHex : Bool := true

/-- The body of the loop. -/
def TokenScan.step (scan : TokenScan) (c : UInt8) : TokenScan where
  longestDigitRun :=
    if isAsciiDigit c then max scan.longestDigitRun (scan.currentDigitRun + 1)
    else scan.longestDigitRun
  currentDigitRun := if isAsciiDigit c then scan.currentDigitRun + 1 else 0
  hasAlpha := scan.hasAlpha || isAsciiAlpha c
  hasDigit := scan.hasDigit || isAsciiDigit c
  hasSymbol := scan.hasSymbol || c == chr '_' || c == chr '-' || c == chr '.'
  allHex := scan.allHex && isAsciiHexDigit c

/-- Is a token long enough to be a secret, and no version or address? -/
def checkToken (token : Bytes) : Bool :=
  if token.isEmpty then false
  else if isIpv4LikeAsciiToken token then true
  else if isVersionLikeAsciiToken token then false
  else
    let scan := token.foldl TokenScan.step {}
    if 8 ≤ scan.longestDigitRun then true
    else if 12 ≤ token.length ∧ scan.hasAlpha ∧ scan.hasDigit ∧ scan.hasSymbol then true
    else if 16 ≤ token.length ∧ scan.hasAlpha ∧ scan.hasDigit then true
    else if 16 ≤ token.length ∧ scan.allHex ∧ scan.hasAlpha then true
    else if 24 ≤ token.length ∧ scan.hasAlpha then true
    else decide (32 ≤ token.length)

/-- The loop of `LooksLikeLongAsciiToken`, with the part of a token that has been passed. -/
def tokenLoop (token : Bytes) : Bytes → Bool
  | [] => checkToken token
  | c :: rest =>
    if isAsciiTokenChar c then tokenLoop (token ++ [c]) rest
    else if checkToken token then true
    else tokenLoop [] rest

/-- Is there such a token in a text? -/
def looksLikeLongAsciiToken (text : Bytes) : Bool := tokenLoop [] text

/-! ## The two policies -/

/-- What a text is: typed, or the context of what is typed. -/
inductive ZenzTextPrivacyPolicy
  | liveText
  | context

/-- What was found in a text. -/
inductive ZenzTextPrivacySignal
  | none
  | emailLike
  | urlOrDomainLike
  | pathLike
  | secretPrefix
  | tokenLike
  | credentialWord
  deriving DecidableEq

/-- `AnalyzeLiveText`. -/
def analyzeLiveText (text : Bytes) : ZenzTextPrivacySignal :=
  if looksLikeLiveEmail text then .emailLike
  else if looksLikeLiveUrlOrDomain text then .urlOrDomainLike
  else if looksLikeLivePath text then .pathLike
  else if looksLikeLiveKnownSecretPrefix text then .secretPrefix
  else if looksLikeLongAsciiToken text then .tokenLike
  else if containsLiveSensitiveCredentialWord text then .credentialWord
  else .none

/-- `AnalyzeContextText`. -/
def analyzeContextText (text : Bytes) : ZenzTextPrivacySignal :=
  if looksLikeLiveKnownSecretPrefix text || containsAny (toLowerAscii text) ["pk_"] then
    .secretPrefix
  else if containsHistoricalContextCredentialWord text ||
      containsLiveSensitiveCredentialWord text then .credentialWord
  else if looksLikeLiveEmail text then .emailLike
  else if looksLikeLiveUrlOrDomain text || containsAny (toLowerAscii text) ["mailto:"] then
    .urlOrDomainLike
  else if looksLikeLivePath text then .pathLike
  else if looksLikeLongAsciiToken text then .tokenLike
  else .none

/-- `Analyze`, by the policy. -/
def analyze (text : Bytes) : ZenzTextPrivacyPolicy → ZenzTextPrivacySignal
  | .liveText => analyzeLiveText text
  | .context => analyzeContextText text

/-- Was anything found? -/
def ZenzTextPrivacySignal.sensitive (signal : ZenzTextPrivacySignal) : Bool :=
  decide (signal ≠ .none)

/-! ## The form of a version number -/

/-- A non-empty row of digits. -/
def IsDigits (group : Bytes) : Prop := group ≠ [] ∧ ∀ c ∈ group, isAsciiDigit c = true

/-- A hyphen with letters and then digits. -/
def IsVersionTag (suffix : Bytes) : Prop :=
  ∃ letters digits, suffix = chr '-' :: (letters ++ digits) ∧ letters ≠ [] ∧
    (∀ c ∈ letters, isAsciiAlpha c = true) ∧ ∀ c ∈ digits, isAsciiDigit c = true

/-- Two to four groups of digits with dots between, behind a `v` or not, before a tag or not. -/
def IsVersionNumber (token : Bytes) : Prop :=
  ∃ (v first : Bytes) (groups : List Bytes) (suffix : Bytes),
    token = v ++ first ++ groups.flatMap (chr '.' :: ·) ++ suffix ∧
    (v = [] ∨ v = [chr 'v'] ∨ v = [chr 'V']) ∧ IsDigits first ∧
    1 ≤ groups.length ∧ groups.length ≤ 3 ∧ (∀ group ∈ groups, IsDigits group) ∧
    (suffix = [] ∨ IsVersionTag suffix)

theorem dropWhile_append {p : UInt8 → Bool} {run rest : Bytes} (hrun : ∀ c ∈ run, p c = true)
    (hrest : rest.head?.any p = false) : (run ++ rest).dropWhile p = rest := by
  rw [List.dropWhile_append, List.dropWhile_eq_nil_iff.mpr hrun]
  cases rest with
  | nil => rfl
  | cons c rest => simpa using hrest

theorem consumeDigits_eq_some {token rest : Bytes} (h : consumeDigits token = some rest) :
    ∃ group, IsDigits group ∧ token = group ++ rest := by
  cases token with
  | nil => cases h
  | cons c token =>
    rw [consumeDigits] at h
    split_ifs at h with hdigit
    obtain rfl : token.dropWhile isAsciiDigit = rest := Option.some.inj h
    refine ⟨c :: token.takeWhile isAsciiDigit, ⟨List.cons_ne_nil _ _, ?_⟩, ?_⟩
    · intro d hd
      rcases List.mem_cons.mp hd with rfl | hd
      · exact hdigit
      · exact List.mem_takeWhile_imp hd
    · rw [List.cons_append, List.takeWhile_append_dropWhile]

theorem consumeDigits_append {group rest : Bytes} (hgroup : IsDigits group)
    (hrest : rest.head?.any isAsciiDigit = false) : consumeDigits (group ++ rest) = some rest := by
  obtain ⟨hne, hdigits⟩ := hgroup
  cases group with
  | nil => exact absurd rfl hne
  | cons c group =>
    obtain ⟨hc, hgroup⟩ := List.forall_mem_cons.mp hdigits
    rw [List.cons_append, consumeDigits, if_pos hc, dropWhile_append hgroup hrest]

theorem versionLoop_eq_some {left : Nat} {token rest : Bytes}
    (h : versionLoop left token = some rest) :
    ∃ groups : List Bytes, groups.length ≤ left ∧ (∀ group ∈ groups, IsDigits group) ∧
      token = groups.flatMap (chr '.' :: ·) ++ rest := by
  induction left generalizing token with
  | zero =>
    rw [versionLoop] at h
    split_ifs at h
    exact ⟨[], le_rfl, by simp, Option.some.inj h⟩
  | succ left ih =>
    rw [versionLoop] at h
    split_ifs at h with hdot
    · obtain ⟨behind, hconsume, hloop⟩ := Option.bind_eq_some_iff.mp h
      obtain ⟨group, hgroup, htail⟩ := consumeDigits_eq_some hconsume
      obtain ⟨groups, hlength, hgroups, rfl⟩ := ih hloop
      refine ⟨group :: groups, by simpa using hlength,
        List.forall_mem_cons.mpr ⟨hgroup, hgroups⟩, ?_⟩
      obtain ⟨token, rfl⟩ := List.head?_eq_some_iff.mp hdot
      rw [List.tail_cons] at htail
      rw [htail, List.flatMap_cons, List.cons_append, List.cons_append, List.append_assoc]
    · exact ⟨[], Nat.zero_le _, by simp, Option.some.inj h⟩

theorem versionLoop_append {left : Nat} {groups : List Bytes} {suffix : Bytes}
    (hlength : groups.length ≤ left) (hgroups : ∀ group ∈ groups, IsDigits group)
    (hdot : suffix.head? ≠ some (chr '.')) (hdigit : suffix.head?.any isAsciiDigit = false) :
    versionLoop left (groups.flatMap (chr '.' :: ·) ++ suffix) = some suffix := by
  induction groups generalizing left with
  | nil => cases left <;> exact if_neg hdot
  | cons group groups ih =>
    obtain ⟨hgroup, hgroups⟩ := List.forall_mem_cons.mp hgroups
    cases left with
    | zero => exact absurd hlength (Nat.not_succ_le_zero _)
    | succ left =>
      have hrest : (groups.flatMap (chr '.' :: ·) ++ suffix).head?.any isAsciiDigit = false := by
        cases groups with
        | nil => exact hdigit
        | cons => exact (by decide : isAsciiDigit (chr '.') = false)
      rw [versionLoop, List.flatMap_cons, List.cons_append, List.cons_append, List.append_assoc]
      rw [if_pos (by rfl), List.tail_cons, consumeDigits_append hgroup hrest]
      exact ih (Nat.le_of_succ_le_succ hlength) hgroups

theorem isVersionSuffix_iff {suffix : Bytes} :
    isVersionSuffix suffix = true ↔ suffix = [] ∨ IsVersionTag suffix := by
  have hletter : ∀ c, isAsciiAlpha c = true → isAsciiDigit c = false := by decide +kernel
  rw [isVersionSuffix]
  constructor
  · intro h
    split_ifs at h with hhyphen halpha
    · obtain ⟨rest, rfl⟩ := List.head?_eq_some_iff.mp hhyphen
      rw [List.tail_cons] at h halpha
      refine Or.inr ⟨rest.takeWhile isAsciiAlpha, rest.dropWhile isAsciiAlpha, ?_, ?_,
        fun c hc => List.mem_takeWhile_imp hc, ?_⟩
      · rw [List.takeWhile_append_dropWhile]
      · cases rest with
        | nil => cases halpha
        | cons c rest =>
          rw [List.takeWhile_cons_of_pos (by simpa using halpha)]
          exact List.cons_ne_nil _ _
      · exact List.dropWhile_eq_nil_iff.mp (List.isEmpty_iff.mp h)
    · exact Or.inl (List.isEmpty_iff.mp h)
  · rintro (rfl | ⟨letters, digits, rfl, hne, hletters, hdigits⟩)
    · rfl
    · have hbehind : digits.head?.any isAsciiAlpha = false := by
        cases digits with
        | nil => rfl
        | cons d digits =>
          rw [List.head?_cons, Option.any_some, Bool.eq_false_iff]
          intro halpha
          have := hdigits d List.mem_cons_self
          rw [hletter d halpha] at this
          cases this
      obtain ⟨c, letters, rfl⟩ := List.exists_cons_of_ne_nil hne
      rw [if_pos (by rfl), List.tail_cons, dropWhile_append hletters hbehind,
        List.dropWhile_eq_nil_iff.mpr hdigits]
      exact if_pos (hletters c List.mem_cons_self)

example : isVersionSuffix (ascii "-rc1") = true := by decide +kernel

theorem exists_versionBody (token : Bytes) :
    ∃ v : Bytes, (v = [] ∨ v = [chr 'v'] ∨ v = [chr 'V']) ∧ token = v ++ versionBody token := by
  rw [versionBody]
  split_ifs with hv
  · rcases hv with hv | hv
    · obtain ⟨rest, rfl⟩ := List.head?_eq_some_iff.mp hv
      exact ⟨[chr 'v'], Or.inr (Or.inl rfl), rfl⟩
    · obtain ⟨rest, rfl⟩ := List.head?_eq_some_iff.mp hv
      exact ⟨[chr 'V'], Or.inr (Or.inr rfl), rfl⟩
  · exact ⟨[], Or.inl rfl, rfl⟩

theorem versionBody_append {v first : Bytes} (rest : Bytes)
    (hv : v = [] ∨ v = [chr 'v'] ∨ v = [chr 'V']) (hfirst : IsDigits first) :
    versionBody (v ++ (first ++ rest)) = first ++ rest := by
  rcases hv with rfl | rfl | rfl
  · obtain ⟨c, first, rfl⟩ := List.exists_cons_of_ne_nil hfirst.1
    have hc := hfirst.2 c List.mem_cons_self
    refine if_neg ?_
    rintro (h | h)
    · rw [Option.some.inj h] at hc
      exact absurd hc (by decide)
    · rw [Option.some.inj h] at hc
      exact absurd hc (by decide)
  · exact if_pos (Or.inl rfl)
  · exact if_pos (Or.inr rfl)

/-- **THE FORM OF A VERSION NUMBER**. -/
theorem isVersionLikeAsciiToken_iff {token : Bytes} :
    isVersionLikeAsciiToken token = true ↔ IsVersionNumber token := by
  constructor
  · intro h
    obtain ⟨v, hv, htoken⟩ := exists_versionBody token
    rw [isVersionLikeAsciiToken] at h
    split_ifs at h
    cases hconsume : consumeDigits (versionBody token) with
    | none => simp [hconsume] at h
    | some rest =>
      simp only [hconsume] at h
      cases hloop : versionLoop 3 rest with
      | none => simp [hloop] at h
      | some suffix =>
        simp only [hloop] at h
        split_ifs at h with hdot
        obtain ⟨first, hfirst, hbody⟩ := consumeDigits_eq_some hconsume
        obtain ⟨groups, hlength, hgroups, rfl⟩ := versionLoop_eq_some hloop
        have hsuffix := isVersionSuffix_iff.mp h
        refine ⟨v, first, groups, suffix, ?_, hv, hfirst, ?_, hlength, hgroups, hsuffix⟩
        · rw [htoken, hbody, List.append_assoc, List.append_assoc]
        -- without a group the dot would begin the tag
        cases groups with
        | nil =>
          rcases hsuffix with rfl | ⟨letters, digits, rfl, -⟩
          · cases hdot
          · exact absurd (Option.some.inj hdot) (by decide)
        | cons group groups => exact Nat.succ_le_succ (Nat.zero_le _)
  · rintro ⟨v, first, groups, suffix, rfl, hv, hfirst, hpos, hlength, hgroups, hsuffix⟩
    have hhead : suffix.head? ≠ some (chr '.') ∧ suffix.head?.any isAsciiDigit = false := by
      rcases hsuffix with rfl | ⟨letters, digits, rfl, -⟩
      · exact ⟨nofun, rfl⟩
      · exact ⟨by rw [List.head?_cons]; decide, by rw [List.head?_cons]; decide⟩
    have hloop := versionLoop_append hlength hgroups hhead.1 hhead.2
    obtain ⟨group, groups, rfl⟩ := List.exists_cons_of_length_pos hpos
    have hbehind : (((group :: groups).flatMap (chr '.' :: ·)) ++ suffix).head? = some (chr '.') :=
      rfl
    have hconsume := consumeDigits_append hfirst
      (show (((group :: groups).flatMap (chr '.' :: ·)) ++ suffix).head?.any isAsciiDigit = false by
        rw [hbehind]
        decide)
    obtain ⟨c, first', hcons⟩ := List.exists_cons_of_ne_nil hfirst.1
    rw [isVersionLikeAsciiToken, if_neg (by simp [hcons]), List.append_assoc, List.append_assoc,
      versionBody_append _ hv hfirst, hconsume]
    simp only [hloop, hbehind, if_true]
    exact isVersionSuffix_iff.mpr hsuffix

/-! ## Runs of digits -/

theorem longestDigitRun_le_foldl (token : Bytes) (scan : TokenScan) :
    scan.longestDigitRun ≤ (token.foldl TokenScan.step scan).longestDigitRun := by
  induction token generalizing scan with
  | nil => exact le_rfl
  | cons c token ih =>
    refine le_trans ?_ (ih (scan.step c))
    rw [TokenScan.step]
    split_ifs
    · exact le_max_left _ _
    · exact le_rfl

theorem currentDigitRun_le_foldl (token : Bytes) {scan : TokenScan}
    (h : scan.currentDigitRun ≤ scan.longestDigitRun) :
    (token.foldl TokenScan.step scan).currentDigitRun ≤
      (token.foldl TokenScan.step scan).longestDigitRun := by
  induction token generalizing scan with
  | nil => exact h
  | cons c token ih =>
    refine ih ?_
    rw [TokenScan.step]
    split_ifs
    · exact le_max_right _ _
    · exact Nat.zero_le _

theorem currentDigitRun_digits {run : Bytes} (hrun : ∀ c ∈ run, isAsciiDigit c = true)
    (scan : TokenScan) :
    (run.foldl TokenScan.step scan).currentDigitRun = scan.currentDigitRun + run.length := by
  induction run generalizing scan with
  | nil => rfl
  | cons c run ih =>
    obtain ⟨hc, hrun⟩ := List.forall_mem_cons.mp hrun
    have hstep : (scan.step c).currentDigitRun = scan.currentDigitRun + 1 := if_pos hc
    rw [List.foldl_cons, ih hrun, hstep, List.length_cons]
    omega

/-- **NO RUN IS LONGER** than the one that the loop over a token has counted. -/
theorem le_longestDigitRun (left right : Bytes) {run : Bytes}
    (hrun : ∀ c ∈ run, isAsciiDigit c = true) :
    run.length ≤ ((left ++ run ++ right).foldl TokenScan.step {}).longestDigitRun := by
  rw [List.foldl_append, List.foldl_append]
  refine le_trans ?_ (longestDigitRun_le_foldl right _)
  have hcounted := currentDigitRun_digits hrun (left.foldl TokenScan.step {})
  have hle : ((left ++ run).foldl TokenScan.step {}).currentDigitRun ≤ _ :=
    currentDigitRun_le_foldl (left ++ run) le_rfl
  rw [List.foldl_append] at hle
  omega

/-- The ASCII token around a part of a text. -/
def asciiTokenAround (before run after : Bytes) : Bytes :=
  before.rtakeWhile isAsciiTokenChar ++ run ++ after.takeWhile isAsciiTokenChar

theorem rtakeWhile_append_cons {p : UInt8 → Bool} {c : UInt8} (left right : Bytes)
    (hc : p c = false) : (left ++ c :: right).rtakeWhile p = right.rtakeWhile p := by
  induction right using List.reverseRecOn with
  | nil => rw [List.rtakeWhile_concat_neg _ _ _ (by simp [hc]), List.rtakeWhile_nil]
  | append_singleton right d ih =>
    rw [← List.cons_append, ← List.append_assoc, List.rtakeWhile_concat, List.rtakeWhile_concat, ih]

/-- The token that has been begun before a part of the text is checked with it. -/
theorem tokenLoop_append {token before rest : Bytes}
    (htoken : ∀ c ∈ token, isAsciiTokenChar c = true)
    (h : tokenLoop ((token ++ before).rtakeWhile isAsciiTokenChar) rest = true) :
    tokenLoop token (before ++ rest) = true := by
  induction before generalizing token with
  | nil =>
    rw [List.append_nil, List.rtakeWhile_eq_self_iff.mpr htoken] at h
    exact h
  | cons c before ih =>
    rw [List.cons_append, tokenLoop]
    split_ifs with hc hcheck
    · refine ih ?_ ?_
      · simpa [or_imp, forall_and, hc] using htoken
      · rwa [List.append_assoc]
    · rfl
    · refine ih (by simp) ?_
      rwa [rtakeWhile_append_cons _ _ (by simpa using hc)] at h

theorem tokenLoop_of_check {token run after : Bytes}
    (hrun : ∀ c ∈ run, isAsciiTokenChar c = true)
    (h : checkToken (token ++ run ++ after.takeWhile isAsciiTokenChar) = true) :
    tokenLoop token (run ++ after) = true := by
  induction run generalizing token with
  | nil =>
    rw [List.append_nil] at h
    rw [List.nil_append]
    induction after generalizing token with
    | nil => simpa [tokenLoop] using h
    | cons c after ih =>
      rw [tokenLoop]
      split_ifs with hc hcheck
      · refine ih ?_
        rw [List.takeWhile_cons_of_pos hc] at h
        simpa using h
      · rfl
      · rw [List.takeWhile_cons_of_neg hc, List.append_nil] at h
        exact absurd h hcheck
  | cons c run ih =>
    obtain ⟨hc, hrun⟩ := List.forall_mem_cons.mp hrun
    rw [List.cons_append, tokenLoop, if_pos hc]
    exact ih hrun (by simpa using h)

/-- **THE TOKEN AROUND** a part of the text is checked. -/
theorem tokenLoop_around {before run after : Bytes}
    (hrun : ∀ c ∈ run, isAsciiTokenChar c = true)
    (h : checkToken (asciiTokenAround before run after) = true) :
    looksLikeLongAsciiToken (before ++ run ++ after) = true := by
  rw [List.append_assoc]
  exact tokenLoop_append (by simp) (tokenLoop_of_check hrun h)

theorem analyze_of_longToken {text : Bytes} (h : looksLikeLongAsciiToken text = true)
    (policy : ZenzTextPrivacyPolicy) : (analyze text policy).sensitive = true := by
  cases policy with
  | liveText =>
    rw [analyze, analyzeLiveText, if_pos h]
    split_ifs <;> rfl
  | context =>
    rw [analyze, analyzeContextText, if_pos h]
    split_ifs <;> rfl

/-- A version number with a run of eight digits is not sensitive. -/
theorem version_not_sensitive :
    ¬ ∀ before run after : Bytes, 8 ≤ run.length → (∀ c ∈ run, isAsciiDigit c = true) →
      ∀ policy, (analyze (before ++ run ++ after) policy).sensitive = true := by
  intro h
  have hfound := h (ascii "v") (ascii "12345678") (ascii ".1") (by decide) (by decide +kernel)
    .liveText
  have hnone : analyze (ascii "v" ++ ascii "12345678" ++ ascii ".1") .liveText = .none := by
    decide +kernel
  rw [hnone] at hfound
  cases hfound

/-- **A LONG RUN OF DIGITS IS SENSITIVE** under both policies, unless the token around it is a
    version number that is not an address. -/
theorem sensitive_of_digitRun (before run after : Bytes) (hlength : 8 ≤ run.length)
    (hrun : ∀ c ∈ run, isAsciiDigit c = true)
    (hversion : ¬ IsVersionNumber (asciiTokenAround before run after) ∨
      isIpv4LikeAsciiToken (asciiTokenAround before run after) = true)
    (policy : ZenzTextPrivacyPolicy) :
    (analyze (before ++ run ++ after) policy).sensitive = true := by
  refine analyze_of_longToken (tokenLoop_around (fun c hc => ?_) ?_) policy
  · simp [isAsciiTokenChar, isAsciiAlnum, hrun c hc]
  · have hne : asciiTokenAround before run after ≠ [] := by
      intro h
      have := congrArg List.length h
      simp only [asciiTokenAround, List.length_append, List.length_nil] at this
      omega
    rw [checkToken, if_neg (by simpa using hne)]
    split_ifs with hipv4 hlike
    · rfl
    · rcases hversion with hversion | hipv4'
      · exact absurd (isVersionLikeAsciiToken_iff.mp hlike) hversion
      · exact absurd hipv4' hipv4
    · exact if_pos (hlength.trans (le_longestDigitRun _ _ hrun))

/-- The number behind `tel` is sensitive. -/
theorem sensitive_phoneNumber :
    (analyze (ascii "tel" ++ ascii "0312345678" ++ ascii "-1") .context).sensitive = true :=
  sensitive_of_digitRun (ascii "tel") (ascii "0312345678") (ascii "-1") (by decide)
    (by decide +kernel)
    (Or.inl fun h => absurd (isVersionLikeAsciiToken_iff.mpr h) (by decide +kernel)) .context

end MozkeyPrivacy
