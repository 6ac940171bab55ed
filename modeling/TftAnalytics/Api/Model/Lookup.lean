import TftAnalytics.Common.Percent
import TftAnalytics.Common.Text
import Mathlib.Data.List.Infix
/-!
# API — from a path parameter to Riot

What the endpoint `/player/{summoner_name}` does with the strings of a
client, up to the first request that it makes to Riot: `clean_param` and
`validate_riot_id` of `security.py`, the gate of `player_analysis`, and
`account` of `riot.py`. Strings are lists of characters. Which characters
beyond ASCII `\w` takes is a parameter.
-/

namespace TftAnalytics

namespace Api

open Text

/-- The characters of a literal. -/
abbrev text (s : String) : List Char := s.toList

/-- `HTTPException`. -/
structure HttpException where
  status : ℕ
  detail : List Char
  deriving DecidableEq

/-- `_CTRL`. -/
def isCtrl (c : Char) : Bool := c.toNat < 32 || c.toNat = 127

/-- `clean_param`, for a maximal length. -/
def cleanParam (maxParamLen : ℕ) (field : List Char) :
    Option (List Char) → Except HttpException (List Char)
  | none => .ok []
  | some value =>
    if maxParamLen < value.length then .error ⟨422, field ++ text " too long"⟩
    else if value.any isCtrl then .error ⟨422, field ++ text " contains invalid characters"⟩
    else if text ".." <:+: value ∨ text "://" <:+: lower value then
      .error ⟨422, field ++ text " is malformed"⟩
    else .ok (strip value)

/-- `[A-Za-z0-9]`. -/
def isAsciiAlnum (c : Char) : Bool := c.isAlphanum

/-- `[\w .\-]`. -/
def isNameChar (isWord : Char → Bool) (c : Char) : Bool := isWord c || c ∈ [' ', '.', '-']

/-- `(?:#[A-Za-z0-9]{1,10})?$`, where `$` also matches before a last
newline. -/
def matchesTag : List Char → Bool
  | [] => true
  | '#' :: rest =>
    let tag := rest.takeWhile isAsciiAlnum
    1 ≤ tag.length && tag.length ≤ 10 && rest.dropWhile isAsciiAlnum ∈ [[], ['\n']]
  | rest => rest = ['\n']

/-- `_RIOT_ID.match`: the name's characters are none that can follow it, so
it takes all of them. -/
def matchesRiotId (isWord : Char → Bool) (s : List Char) : Bool :=
  let name := s.takeWhile (isNameChar isWord)
  1 ≤ name.length && name.length ≤ 30 && matchesTag (s.dropWhile (isNameChar isWord))

/-- `validate_riot_id`. -/
def validateRiotId (isWord : Char → Bool) (maxParamLen : ℕ) (raw : Option (List Char)) :
    Except HttpException (List Char) :=
  match cleanParam maxParamLen (text "riot id") raw with
  | .error e => .error e
  | .ok val =>
    if val = [] then .error ⟨422, text "riot id is required"⟩
    else if matchesRiotId isWord val = false then .error ⟨422, text "invalid Riot id format"⟩
    else .ok val

/-- `_ROUTING`: platform, account cluster and match cluster. -/
def routing : List (List Char × GoString × GoString × GoString) :=
  let americas := (ascii "americas", ascii "americas")
  let americasSea := (ascii "americas", ascii "sea")
  let europe := (ascii "europe", ascii "europe")
  let asia := (ascii "asia", ascii "asia")
  let asiaSea := (ascii "asia", ascii "sea")
  [(text "NA1", ascii "na1", americas), (text "NA", ascii "na1", americas),
    (text "BR1", ascii "br1", americas), (text "BR", ascii "br1", americas),
    (text "LAN", ascii "la1", americas), (text "LA1", ascii "la1", americas),
    (text "LAS", ascii "la2", americas), (text "LA2", ascii "la2", americas),
    (text "OCE", ascii "oc1", americasSea), (text "OC1", ascii "oc1", americasSea),
    (text "EUW", ascii "euw1", europe), (text "EUW1", ascii "euw1", europe),
    (text "EUNE", ascii "eun1", europe), (text "EUN1", ascii "eun1", europe),
    (text "EUNE1", ascii "eun1", europe), (text "TR", ascii "tr1", europe),
    (text "TR1", ascii "tr1", europe), (text "RU", ascii "ru", europe),
    (text "KR", ascii "kr", asia), (text "KR1", ascii "kr", asia),
    (text "JP", ascii "jp1", asia), (text "JP1", ascii "jp1", asia),
    (text "VN2", ascii "vn2", asiaSea), (text "SG2", ascii "sg2", asiaSea),
    (text "TW2", ascii "tw2", asiaSea), (text "TH2", ascii "th2", asiaSea),
    (text "PH2", ascii "ph2", asiaSea)]

/-- `route`; a tag with letters beyond ASCII is in no row, in upper case or
not. -/
def route (tag : List Char) : GoString × GoString × GoString :=
  ((routing.find? fun row => row.1 = tag.map Char.toUpper).map Prod.snd).getD
    (ascii "na1", ascii "americas", ascii "americas")

/-- The bytes that `urllib.parse.quote` leaves, `/` with them. -/
def quoteSafe (b : UInt8) : Bool :=
  (48 ≤ b && b ≤ 57) || (65 ≤ b && b ≤ 90) || (97 ≤ b && b ≤ 122) || b ∈ [95, 46, 45, 126, 47]

/-- `urllib.parse.quote`. -/
def quote (s : List Char) : Bytes := Percent.encode quoteSafe (utf8 s)

/-- A request to Riot: `https://{host}.api.riotgames.com{path}`, with the key
in a header. -/
structure RiotRequest where
  host : GoString
  path : Bytes
  key : List Char
  deriving DecidableEq

/-- `account`. -/
def account (key gameName tag : List Char) : RiotRequest :=
  { host := (route tag).2.1
    path := ascii "/riot/account/v1/accounts/by-riot-id/" ++ quote gameName ++ [47] ++ quote tag
    key := key }

/-- `key and key.lower() not in (...)`. -/
def isRealKey (key : List Char) : Bool :=
  key ≠ [] && lower key ∉ [text "", text "synthetic", text "none"]

/-- What `player_analysis` starts with: an answer with a status and no
request, or the first request of `build_player_profile`. -/
inductive Analysis where
  | needsApiKey
  | needsTag
  | account (request : RiotRequest)
  deriving DecidableEq

/-- `player_analysis`, up to its first request; an empty key counts as
none. -/
def playerAnalysis (selfKey : Option (List Char)) (summonerName : List Char)
    (apiKey : Option (List Char)) : Analysis :=
  let key := ((apiKey.filter (· ≠ [])).or selfKey).getD []
  let raw := strip summonerName
  let gameName := strip (raw.takeWhile (· ≠ '#'))
  let tag := strip ((raw.dropWhile (· ≠ '#')).drop 1)
  if isRealKey key = false then .needsApiKey
  else if tag = [] then .needsTag
  else .account (account key gameName tag)

/-- The endpoint `/player/{summoner_name}`, with its parameters `region` and
`key` and the header `X-Riot-Key`. -/
def playerEndpoint (isWord : Char → Bool) (maxParamLen : ℕ) (selfKey : Option (List Char))
    (summonerName region key xRiotKey : List Char) : Except HttpException Analysis :=
  match validateRiotId isWord maxParamLen (some summonerName),
    cleanParam maxParamLen (text "region") (some region) with
  | .error e, _ => .error e
  | .ok _, .error e => .error e
  | .ok name, .ok _ =>
    let apiKey := strip (if xRiotKey ≠ [] then xRiotKey else key)
    .ok (playerAnalysis selfKey name (if apiKey = [] then none else some apiKey))

end Api

end TftAnalytics
