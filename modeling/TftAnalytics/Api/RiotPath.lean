import TftAnalytics.Api.Model.Lookup
/-!
# API — what a client can ask of Riot

A name that the endpoint accepts is a Riot id, and the request that is made
for it goes to one of the account hosts, under the path of that id and no
other. `quote` leaves slashes, so it is the validation that keeps the path
in one piece.
-/

namespace TftAnalytics

namespace Api

open Text

/-! ## `strip` -/

/-- Neither end is a space. -/
structure Trimmed (s : List Char) : Prop where
  head : ∀ c ∈ s.head?, isSpace c = false
  last : ∀ c ∈ s.getLast?, isSpace c = false

theorem trimmed_strip (s : List Char) : Trimmed (strip s) where
  head := by
    intro c hc
    obtain ⟨rest, hrest⟩ := List.rdropWhile_prefix isSpace (s.dropWhile isSpace)
    have hhead := List.head?_dropWhile_not isSpace s
    rcases hs : strip s with _ | ⟨d, t⟩
    · rw [hs] at hc
      cases hc
    · rw [hs] at hc
      obtain rfl := Option.some.inj hc
      unfold strip at hs
      rw [hs, List.cons_append] at hrest
      rw [← hrest] at hhead
      simpa using hhead
  last := by
    intro c hc
    have hne : strip s ≠ [] := by
      rintro hnil
      rw [hnil] at hc
      cases hc
    rw [List.getLast?_eq_some_getLast hne] at hc
    obtain rfl := Option.some.inj hc
    have hlast := List.rdropWhile_last_not isSpace (s.dropWhile isSpace) hne
    exact Bool.eq_false_iff.mpr hlast

/-- **What is trimmed stays as it is.** -/
theorem Trimmed.strip_eq {s : List Char} (h : Trimmed s) : strip s = s := by
  have hfront : s.dropWhile isSpace = s := by
    rcases s with _ | ⟨c, s⟩
    · rfl
    · exact List.dropWhile_cons_of_neg (by simp [h.head c rfl])
  unfold strip
  rw [hfront]
  rcases List.eq_nil_or_concat' s with rfl | ⟨t, c, rfl⟩
  · rfl
  · exact List.rdropWhile_concat_neg _ _ _ (by simp [h.last c (by simp)])

/-- What is left comes from the string. -/
theorem strip_sublist (s : List Char) : (strip s).Sublist s :=
  (List.rdropWhile_prefix _ _).sublist.trans (List.dropWhile_sublist _)

/-- A string that does not start with a space leaves something. -/
theorem strip_ne_nil {s : List Char} (hs : s ≠ []) (h : ∀ c ∈ s.head?, isSpace c = false) :
    strip s ≠ [] := by
  rcases s with _ | ⟨c, s⟩
  · exact absurd rfl hs
  · have hc := h c rfl
    unfold strip
    rw [List.dropWhile_cons_of_neg (by simp [hc])]
    intro hnil
    have hall := List.rdropWhile_eq_nil_iff.mp hnil c List.mem_cons_self
    rw [hc] at hall
    cases hall

/-! ## Riot ids -/

/-- `\w` in ASCII. -/
def AsciiWords (isWord : Char → Bool) : Prop :=
  ∀ c : Char, c.toNat < 128 → isWord c = (c.isAlphanum || c = '_')

/-- **A Riot id**: a name and a tag. -/
structure RiotId (isWord : Char → Bool) where
  name : List Char
  tag : List Char
  name_ne : name ≠ []
  name_length : name.length ≤ 30
  name_chars : ∀ c ∈ name, isNameChar isWord c = true
  tag_ne : tag ≠ []
  tag_length : tag.length ≤ 10
  tag_chars : ∀ c ∈ tag, isAsciiAlnum c = true

/-- Where the letters and digits are. -/
theorem alnum_range {c : Char} (h : isAsciiAlnum c = true) :
    48 ≤ c.toNat ∧ c.toNat ≤ 57 ∨ 65 ≤ c.toNat ∧ c.toNat ≤ 90 ∨ 97 ≤ c.toNat ∧ c.toNat ≤ 122 := by
  have hA : 'A'.val.toNat = 65 := rfl
  have hZ : 'Z'.val.toNat = 90 := rfl
  have ha : 'a'.val.toNat = 97 := rfl
  have hz : 'z'.val.toNat = 122 := rfl
  have h0 : '0'.val.toNat = 48 := rfl
  have h9 : '9'.val.toNat = 57 := rfl
  have hclasses : isAsciiAlnum c = (decide ('A'.val ≤ c.val ∧ c.val ≤ 'Z'.val)
      || decide ('a'.val ≤ c.val) && decide (c.val ≤ 'z'.val)
      || decide ('0'.val ≤ c.val) && decide (c.val ≤ '9'.val)) := rfl
  rw [hclasses] at h
  simp only [Bool.or_eq_true, Bool.and_eq_true, decide_eq_true_eq, UInt32.le_iff_toNat_le] at h
  simp only [← Char.toNat_val]
  omega

theorem isSpace_of_alnum {c : Char} (h : isAsciiAlnum c = true) : isSpace c = false := by
  have hrange := alnum_range h
  unfold isSpace
  simp only [List.mem_cons, List.not_mem_nil, or_false, decide_eq_false_iff_not]
  omega

variable {isWord : Char → Bool}

/-- What a name has no room for. -/
theorem isNameChar_of_ascii (hword : AsciiWords isWord) {c : Char} (hc : c.toNat < 128)
    (halnum : c.isAlphanum = false) (h : c ∉ ['_', ' ', '.', '-']) :
    isNameChar isWord c = false := by
  unfold isNameChar
  rw [hword c hc, halnum]
  simp_all

/-- A tag that the pattern takes, at the end of a trimmed string. -/
theorem tag_of_match {rest : List Char} (hmatch : matchesTag ('#' :: rest) = true)
    (hlast : ∀ c ∈ rest.getLast?, isSpace c = false) :
    strip rest = rest ∧ rest ≠ [] ∧ rest.length ≤ 10 ∧ ∀ c ∈ rest, isAsciiAlnum c = true := by
  simp only [matchesTag, Bool.and_eq_true, decide_eq_true_eq, List.mem_cons, List.not_mem_nil,
    or_false] at hmatch
  obtain ⟨⟨hpos, hlen⟩, hend⟩ := hmatch
  have hcut := List.takeWhile_append_dropWhile (p := isAsciiAlnum) (l := rest)
  rcases hend with hend | hend
  · rw [hend, List.append_nil] at hcut
    have halnum : ∀ c ∈ rest, isAsciiAlnum c = true := by
      intro c hc
      rw [← hcut] at hc
      exact List.mem_takeWhile_imp hc
    rw [hcut] at hpos hlen
    refine ⟨Trimmed.strip_eq ⟨fun c hc => ?_, hlast⟩, List.ne_nil_of_length_pos hpos, hlen, halnum⟩
    exact isSpace_of_alnum (halnum c (List.mem_of_head? hc))
  · -- a newline at the end would have been stripped
    have hnewline : isSpace '\n' = false := hlast '\n' (by rw [← hcut, hend]; simp)
    exact absurd hnewline (by decide)

/-- **What the validation accepts**, with a tag. -/
theorem riotId_of_match (hword : AsciiWords isWord) {val : List Char} (htrim : Trimmed val)
    (hmatch : matchesRiotId isWord val = true)
    (htag : strip ((val.dropWhile (· ≠ '#')).drop 1) ≠ []) :
    ∃ id : RiotId isWord, id.name = strip (val.takeWhile (· ≠ '#')) ∧
      id.tag = strip ((val.dropWhile (· ≠ '#')).drop 1) := by
  simp only [matchesRiotId, Bool.and_eq_true, decide_eq_true_eq] at hmatch
  obtain ⟨⟨hpos, hlen⟩, hrest⟩ := hmatch
  have hcut := List.takeWhile_append_dropWhile (p := isNameChar isWord) (l := val)
  have hchars : ∀ c ∈ val.takeWhile (isNameChar isWord), isNameChar isWord c = true :=
    fun _ hc => List.mem_takeWhile_imp hc
  generalize val.takeWhile (isNameChar isWord) = name at hpos hlen hcut hchars
  generalize val.dropWhile (isNameChar isWord) = rest at hrest hcut
  have hhash : isNameChar isWord '#' = false :=
    isNameChar_of_ascii hword (by decide) (by decide) (by decide)
  have hname : ∀ c ∈ name, (decide (c ≠ '#')) = true := by
    intro c hc
    refine decide_eq_true ?_
    rintro rfl
    have := hchars _ hc
    rw [hhash] at this
    cases this
  subst hcut
  rw [List.takeWhile_append_of_pos hname]
  rw [List.dropWhile_append_of_pos hname] at htag ⊢
  rcases rest with _ | ⟨c, rest⟩
  · exact absurd rfl htag
  · by_cases hc : c = '#'
    · subst hc
      rw [List.takeWhile_cons_of_neg (by decide), List.append_nil]
      rw [List.dropWhile_cons_of_neg (by decide), List.drop_one, List.tail_cons] at htag ⊢
      have hlast : ∀ c ∈ rest.getLast?, isSpace c = false := by
        intro c hc
        refine htrim.last c ?_
        rw [Option.mem_def] at hc ⊢
        rw [List.getLast?_append, List.getLast?_cons, hc]
        rfl
      obtain ⟨hstrip, hne, htagLen, hAlnum⟩ := tag_of_match hrest hlast
      have hhead : ∀ c ∈ name.head?, isSpace c = false := by
        intro c hc
        refine htrim.head c ?_
        rw [Option.mem_def] at hc ⊢
        rw [List.head?_append, hc]
        rfl
      refine ⟨⟨strip name, rest, strip_ne_nil (List.ne_nil_of_length_pos hpos) hhead, ?_, ?_,
        hne, htagLen, hAlnum⟩, rfl, hstrip.symm⟩
      · exact (strip_sublist name).length_le.trans hlen
      · exact fun c hc => hchars c ((strip_sublist name).subset hc)
    · -- without a `#` there is no tag
      exfalso
      have hnewline : c :: rest = ['\n'] := by
        unfold matchesTag at hrest
        split at hrest
        · rename_i heq
          cases heq
        · rename_i heq
          exact absurd (List.cons.inj heq).1 hc
        · exact of_decide_eq_true hrest
      rw [hnewline] at htag
      exact htag (by decide)

/-! ## The path -/

/-- A byte below 128 in the encoding of a character is that character. -/
theorem toNat_of_mem_utf8 {c : Char} {b : UInt8} (h : b ∈ String.utf8EncodeChar c)
    (hb : b.toNat < 128) : c.toNat = b.toNat := by
  have hval : c.val.toNat = c.toNat := rfl
  unfold String.utf8EncodeChar at h
  simp only [hval] at h
  split_ifs at h <;> simp only [List.mem_cons, List.not_mem_nil, or_false] at h
  · rw [h, UInt8.toNat_ofNat']
    omega
  -- the bytes of a longer encoding are from 128 on
  · rcases h with h | h <;> rw [h, UInt8.toNat_ofNat'] at hb <;> omega
  · rcases h with h | h | h <;> rw [h, UInt8.toNat_ofNat'] at hb <;> omega
  · rcases h with h | h | h | h <;> rw [h, UInt8.toNat_ofNat'] at hb <;> omega

/-- So characters above that, or others, do not bring it in. -/
theorem not_mem_utf8 {s : List Char} {b : UInt8} (hb : b.toNat < 128)
    (h : ∀ c ∈ s, c.toNat ≠ b.toNat) : b ∉ utf8 s := by
  intro hmem
  obtain ⟨c, hc, hbc⟩ := List.mem_flatMap.mp hmem
  exact h c hc (toNat_of_mem_utf8 hbc hb)

/-- The bytes of a path: `quote`'s and `%`. -/
def isPathByte (b : UInt8) : Bool := quoteSafe b || b = 37

theorem isPathByte_of_mem_quote {s : List Char} {b : UInt8} (h : b ∈ quote s) :
    isPathByte b = true := by
  have hall : ∀ n < 256, Percent.isEscape (UInt8.ofNat n) = true →
      isPathByte (UInt8.ofNat n) = true := by decide +kernel
  rcases Percent.mem_encode h with ⟨-, hsafe⟩ | hescape
  · rw [isPathByte, hsafe, Bool.true_or]
  · have hbyte := hall b.toNat b.toNat_lt
    rw [UInt8.ofNat_toNat] at hbyte
    exact hbyte hescape

/-- **What is quoted is read back.** -/
theorem decode_quote (s : List Char) : Percent.decode (quote s) = utf8 s :=
  Percent.decode_encode (by decide) _

/-- The pieces that a path starts with. -/
def accountPieces : List Bytes :=
  [[], ascii "riot", ascii "account", ascii "v1", ascii "accounts", ascii "by-riot-id"]

/-- Without slashes in it an id is two pieces of the path. -/
theorem splitOn_account (key : List Char) {name tag : List Char} (hname : '/' ∉ name)
    (htag : '/' ∉ tag) : (account key name tag).path.splitOn 47
      = accountPieces ++ [quote name, quote tag] := by
  have hquote : ∀ s : List Char, '/' ∉ s → (47 : UInt8) ∉ quote s := by
    intro s hs
    refine Percent.not_mem_encode (not_mem_utf8 (by decide) fun c hc heq => hs ?_) (by decide)
    have hslash : c = '/' := Char.toNat_inj.mp heq
    exact hslash ▸ hc
  have hpieces : ∀ l ∈ accountPieces, (47 : UInt8) ∉ l := by decide
  have hpath : (account key name tag).path
      = [47].intercalate (accountPieces ++ [quote name, quote tag]) := by
    simp [account, accountPieces, ascii, List.intercalate]
  rw [hpath, List.splitOn_intercalate]
  · intro l hl
    rcases List.mem_append.mp hl with hl | hl
    · exact hpieces l hl
    · rcases List.mem_cons.mp hl with rfl | hl
      · exact hquote name hname
      · rw [List.mem_singleton.mp hl]
        exact hquote tag htag
  · simp [accountPieces]

/-- The hosts of accounts. -/
theorem account_host (key name tag : List Char) :
    (account key name tag).host ∈ [ascii "americas", ascii "europe", ascii "asia"] := by
  have hrows : ∀ row ∈ routing, row.2.2.1 ∈ [ascii "americas", ascii "europe", ascii "asia"] := by
    decide
  show (route tag).2.1 ∈ _
  unfold route
  rcases hfind : routing.find? fun row => row.1 = tag.map Char.toUpper with _ | row
  · rw [hfind]
    decide
  · rw [hfind]
    exact hrows row (List.mem_of_find?_eq_some hfind)

/-! ## The endpoint -/

theorem cleanParam_ok {maxParamLen : ℕ} {field value val : List Char}
    (h : cleanParam maxParamLen field (some value) = .ok val) : val = strip value := by
  unfold cleanParam at h
  dsimp only at h
  split_ifs at h
  exact (Except.ok.inj h).symm

theorem validateRiotId_ok {maxParamLen : ℕ} {raw val : List Char}
    (h : validateRiotId isWord maxParamLen (some raw) = .ok val) :
    val = strip raw ∧ matchesRiotId isWord val = true := by
  unfold validateRiotId at h
  split at h
  · cases h
  · rename_i w hw
    split_ifs at h with hnil hmatch
    obtain rfl := Except.ok.inj h
    exact ⟨cleanParam_ok hw, by simpa using hmatch⟩

/-- **The gate** passes on a name with a tag. -/
theorem playerAnalysis_account {selfKey apiKey : Option (List Char)} {name : List Char}
    (htrim : Trimmed name) {request : RiotRequest}
    (h : playerAnalysis selfKey name apiKey = .account request) :
    strip ((name.dropWhile (· ≠ '#')).drop 1) ≠ [] ∧
      ∃ key, request = account key (strip (name.takeWhile (· ≠ '#')))
        (strip ((name.dropWhile (· ≠ '#')).drop 1)) := by
  unfold playerAnalysis at h
  rw [htrim.strip_eq] at h
  dsimp only at h
  split_ifs at h with hkey htag
  exact ⟨htag, _, (Analysis.account.inj h).symm⟩

/-- And so does the endpoint. -/
theorem playerEndpoint_account {maxParamLen : ℕ} {selfKey : Option (List Char)}
    {summonerName region key xRiotKey : List Char} {request : RiotRequest}
    (h : playerEndpoint isWord maxParamLen selfKey summonerName region key xRiotKey
      = .ok (.account request)) :
    matchesRiotId isWord (strip summonerName) = true ∧
      ∃ apiKey, playerAnalysis selfKey (strip summonerName) apiKey = .account request := by
  unfold playerEndpoint at h
  split at h
  · cases h
  · cases h
  · rename_i name _ hname _
    obtain ⟨rfl, hmatch⟩ := validateRiotId_ok hname
    exact ⟨hmatch, _, Except.ok.inj h⟩

/-- The characters of an id are no slashes. -/
theorem RiotId.no_slash (hword : AsciiWords isWord) (id : RiotId isWord) :
    '/' ∉ id.name ∧ '/' ∉ id.tag := by
  have hslash : isNameChar isWord '/' = false :=
    isNameChar_of_ascii hword (by decide) (by decide) (by decide)
  constructor
  · intro hmem
    have hchar := id.name_chars _ hmem
    rw [hslash] at hchar
    cases hchar
  · intro hmem
    have hchar := id.tag_chars _ hmem
    revert hchar
    decide

/-- A path has bytes of its own and quoted ones. -/
theorem isPathByte_of_mem_account {key name tag : List Char} {b : UInt8}
    (h : b ∈ (account key name tag).path) : isPathByte b = true := by
  have hfront : (ascii "/riot/account/v1/accounts/by-riot-id/").all isPathByte = true := by decide
  simp only [account, List.mem_append, List.mem_singleton] at h
  rcases h with ((h | h) | h) | h
  · exact List.all_eq_true.mp hfront b h
  · exact isPathByte_of_mem_quote h
  · rw [h]
    decide
  · exact isPathByte_of_mem_quote h

/-- **What a client can ask of Riot.** Where the endpoint goes on to Riot, its
strings give a Riot id: the name and the tag, each stripped, of the stripped
parameter, cut at its first `#`. The request goes to one of three hosts, on
a path of safe bytes alone; cut at its slashes, the path is that of an
account, with the UTF-8 encodings of this name and of this tag as its last
two pieces once they are decoded. -/
theorem riot_lookup_path (hword : AsciiWords isWord) (maxParamLen : ℕ)
    (selfKey : Option (List Char)) (summonerName region key xRiotKey : List Char)
    {request : RiotRequest}
    (h : playerEndpoint isWord maxParamLen selfKey summonerName region key xRiotKey
      = .ok (.account request)) :
    ∃ id : RiotId isWord,
      id.name = strip ((strip summonerName).takeWhile (· ≠ '#')) ∧
      id.tag = strip (((strip summonerName).dropWhile (· ≠ '#')).drop 1) ∧
      request.host ∈ [ascii "americas", ascii "europe", ascii "asia"] ∧
      (∀ b ∈ request.path, isPathByte b = true) ∧
      (request.path.splitOn 47).map Percent.decode
        = accountPieces ++ [utf8 id.name, utf8 id.tag] := by
  obtain ⟨hmatch, apiKey, hanalysis⟩ := playerEndpoint_account h
  have htrim := trimmed_strip summonerName
  obtain ⟨htag, realKey, rfl⟩ := playerAnalysis_account htrim hanalysis
  obtain ⟨id, hname, htag⟩ := riotId_of_match hword htrim hmatch htag
  obtain ⟨hslash, hslash'⟩ := id.no_slash hword
  have hpieces : accountPieces.map Percent.decode = accountPieces := by decide
  rw [← hname, ← htag]
  refine ⟨id, rfl, rfl, account_host .., fun b => isPathByte_of_mem_account, ?_⟩
  rw [splitOn_account realKey hslash hslash', List.map_append, hpieces]
  simp only [List.map_cons, List.map_nil, decode_quote]

/-- Letters as in ASCII, and one beyond. -/
def umlauts (c : Char) : Bool := c.isAlphanum || c = '_' || c = 'ü'

theorem asciiWords_umlauts : AsciiWords umlauts := by
  intro c hc
  have hne : c ≠ 'ü' := by
    rintro rfl
    exact absurd hc (by decide)
  simp [umlauts, hne]

/-- A name with a space and a letter beyond ASCII. -/
theorem riot_lookup_path_umlaut :
    ∃ id : RiotId umlauts,
      id.name = strip ((strip (text "Jürgen K #EUW")).takeWhile (· ≠ '#')) ∧
      id.tag = strip (((strip (text "Jürgen K #EUW")).dropWhile (· ≠ '#')).drop 1) ∧
      ascii "europe" ∈ [ascii "americas", ascii "europe", ascii "asia"] ∧
      (∀ b ∈ ascii "/riot/account/v1/accounts/by-riot-id/J%C3%BCrgen%20K/EUW",
        isPathByte b = true) ∧
      ((ascii "/riot/account/v1/accounts/by-riot-id/J%C3%BCrgen%20K/EUW").splitOn 47).map
        Percent.decode = accountPieces ++ [utf8 id.name, utf8 id.tag] :=
  riot_lookup_path asciiWords_umlauts 120 (some (text "RGAPI-1")) (text "Jürgen K #EUW")
    (text "NA") [] []
    (show playerEndpoint umlauts 120 (some (text "RGAPI-1")) (text "Jürgen K #EUW") (text "NA") []
        [] = .ok (.account ⟨ascii "europe",
        ascii "/riot/account/v1/accounts/by-riot-id/J%C3%BCrgen%20K/EUW", text "RGAPI-1"⟩) by
      rfl)

end Api

end TftAnalytics
