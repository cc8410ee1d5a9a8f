import LarkX.Evaluate.State

/-!
# Account operations

`account_operations.cpp` and the account names of `chain_interface.cpp`: registering an
account, changing its keys, data and pay rate, and withdrawing the pay of a delegate.
-/

namespace LarkX

/-! ### Names -/

/-- `banned_names`. -/
def bannedNames : List String :=
  ["ac", "academy", "accountants", "active", "actor", "ad", "ae", "aero", "af", "ag", "agency",
    "ai", "airforce", "al", "am", "an", "ao", "aq", "ar", "archi", "army", "arpa", "as", "asia",
    "associates", "at", "attorney", "au", "auction", "audio", "autos", "aw", "ax", "axa", "az",
    "ba", "backup", "bar", "bargains", "bayern", "bb", "bd", "be", "beer", "bter", "btc38",
    "berlin", "best", "bf", "bg", "bh", "bi", "bid", "bike", "bio", "biz", "bj", "bm", "bmw",
    "bn", "bo", "boo", "boutique", "br", "brussels", "bs", "bt", "build", "builders", "business",
    "buzz", "bv", "bw", "by", "bz", "bzh", "ca", "cab", "cal", "camera", "camp", "cancerresearch",
    "capetown", "capital", "caravan", "cards", "care", "career", "careers", "cash", "cat",
    "catering", "cc", "cd", "center", "ceo", "cern", "cf", "cg", "ch", "channel", "cheap",
    "christmas", "chrome", "church", "ci", "citic", "city", "ck", "cl", "claims", "cleaning",
    "click", "clothing", "club", "cm", "cn", "co", "codes", "coffee", "college", "cologne", "com",
    "community", "company", "computer", "condos", "construction", "consulting", "contractors",
    "cooking", "cool", "coop", "country", "cr", "credit", "creditcard", "cruises", "cu",
    "cuisinella", "cv", "cw", "cx", "cy", "cymru", "cz", "dad", "dance", "dating", "day", "de",
    "deals", "degree", "democrat", "desi", "diamonds", "diet", "digital", "direct", "directory",
    "discount", "dj", "dk", "dm", "dnp", "do", "domains", "dz", "eat", "ec", "edu", "education",
    "ee", "eg", "email", "engineer", "engineering", "enterprises", "equipment", "er", "es", "esq",
    "estate", "et", "eu", "eus", "events", "exchange", "expert", "exposed", "fail", "farm",
    "feedback", "fi", "finance", "financial", "fish", "fishing", "fitness", "fj", "fk", "flights",
    "florist", "fly", "fm", "fo", "foo", "foundation", "fr", "frl", "frogans", "fund",
    "furniture", "futbol", "ga", "gal", "gallery", "gb", "gbiz", "gd", "ge", "gent", "gf", "gg",
    "gh", "gi", "gift", "gifts", "gives", "gl", "glass", "gle", "global", "globo", "gm", "gmail",
    "gmo", "gmx", "gn", "google", "gop", "gov", "gp", "gq", "gr", "graphics", "gratis", "green",
    "gripe", "gs", "gt", "gu", "guide", "guitars", "guru", "gw", "gy", "hamburg", "haus",
    "healthcare", "help", "here", "hiphop", "hiv", "hk", "hm", "hn", "holdings", "holiday",
    "homes", "horse", "host", "hosting", "house", "how", "hr", "ht", "hu", "id", "ie", "il", "im",
    "immo", "immobilien", "in", "industries", "info", "ing", "ink", "institute", "insure", "int",
    "international", "investments", "io", "iq", "ir", "is", "it", "je", "jetzt", "jm", "jo",
    "jobs", "joburg", "jp", "juegos", "kaufen", "ke", "kg", "kh", "ki", "kim", "kitchen", "kiwi",
    "km", "kn", "koeln", "kp", "kr", "krd", "kred", "kw", "ky", "kz", "la", "lacaixa", "land",
    "lawyer", "lb", "lc", "lease", "lgbt", "li", "life", "lighting", "limited", "limo", "link",
    "lk", "loans", "london", "lotto", "lr", "ls", "lt", "ltda", "lu", "luxe", "luxury", "lv",
    "ly", "ma", "maison", "management", "market", "marketing", "mc", "md", "me", "media", "meet",
    "melbourne", "meme", "menu", "mg", "mh", "miami", "microsoft", "mil", "mini", "mk", "ml",
    "mm", "mn", "mo", "mobi", "moda", "moe", "money", "monash", "mortgage", "moscow",
    "motorcycles", "mov", "mp", "mq", "mr", "ms", "mt", "music", "mu", "museum", "mv", "mw", "mx",
    "my", "mz", "na", "nagoya", "name", "navy", "nc", "ne", "net", "network", "neustar", "new",
    "nexus", "nf", "ng", "ngo", "nhk", "ni", "ninja", "nl", "no", "np", "nr", "nra", "nrw", "nu",
    "nyc", "nz", "okinawa", "om", "ong", "onl", "ooo", "org", "organic", "offline", "otsuka",
    "ovh", "pa", "paris", "partners", "parts", "pe", "pf", "pg", "ph", "photo", "photography",
    "photos", "physio", "pics", "pictures", "pink", "pizza", "pk", "pl", "place", "plumbing",
    "pm", "pn", "post", "pr", "praxi", "press", "pro", "prod", "productions", "prof",
    "properties", "property", "ps", "pt", "pub", "pw", "py", "qa", "qpon", "quebec", "re",
    "realtor", "recipes", "red", "rehab", "reise", "reisen", "ren", "rentals", "repair", "report",
    "republican", "rest", "restaurant", "reviews", "rich", "rio", "ro", "rocks", "rodeo", "rs",
    "rsvp", "ru", "ruhr", "rw", "ryukyu", "sa", "saarland", "sarl", "sb", "sc", "sca", "scb",
    "schmidt", "schule", "scot", "sd", "se", "services", "sexy", "sg", "sh", "shiksha", "shoes",
    "si", "singles", "sj", "sk", "sl", "sm", "sn", "so", "social", "software", "sohu", "solar",
    "solutions", "soy", "space", "spiegel", "sr", "st", "su", "supplies", "supply", "support",
    "surf", "suzuki", "sv", "sx", "sy", "systems", "sz", "tatar", "tattoo", "tax", "tc", "td",
    "technology", "tel", "tf", "tg", "th", "tienda", "tips", "tirol", "tj", "tk", "tl", "tm",
    "tn", "to", "today", "tokyo", "tools", "top", "town", "toys", "tp", "tr", "trade", "training",
    "travel", "tt", "tv", "tw", "twitter", "tz", "ua", "ug", "uk", "university", "uno", "uol",
    "us", "uy", "uz", "va", "vacations", "vc", "ve", "vegas", "ventures", "versicherung", "vet",
    "vg", "vi", "viajes", "villas", "vision", "vlaanderen", "vn", "vodka", "vote", "voting",
    "voto", "voyage", "vu", "wales", "watch", "webcam", "website", "wed", "wf", "whoswho", "wien",
    "wiki", "williamhill", "wme", "works", "world", "ws", "wtc", "wtf", "xxx", "xyz", "yachts",
    "yandex", "ye", "yokohama", "youtube", "yt", "za", "zip", "zm", "zone", "zw", "local",
    "localhost, vk, vkontakte"]

/-- `isalnum` and not `isupper`, in the C locale. -/
def isLowerAlnum (c : Char) : Bool :=
  ('a' ≤ c && c ≤ 'z') || ('0' ≤ c && c ≤ '9')

/-- `isalpha` in the C locale. -/
def isAlphaC (c : Char) : Bool :=
  ('a' ≤ c && c ≤ 'z') || ('A' ≤ c && c ≤ 'Z')

/-- `get_parent_account_name( name )`: what follows the first dot. -/
def getParentAccountName : Name → Option Name
  | [] => none
  | c :: cs => if c = '.' then some cs else getParentAccountName cs

/-- What precedes the first dot. -/
def subName (name : Name) : Name :=
  name.takeWhile (· ≠ '.')

/-- One round of `is_valid_account_name`: the checks of a name apart from those of the name
that follows its first dot. -/
def isValidAccountLabel (crypto : Crypto) (name : Name) : Bool :=
  btsBlockchainMinNameSize ≤ name.length && name.length ≤ btsBlockchainMaxNameSize &&
    name.head?.any isAlphaC && name.getLast?.any isLowerAlnum &&
    (subName name).getLast?.any isLowerAlnum &&
    (subName name).all (fun c => isLowerAlnum c || c == '-') && !crypto.parsesAsAddress name

/-- `is_valid_account_name`, with one unit of fuel for each label. -/
def isValidAccountNameFuel (crypto : Crypto) : ℕ → Name → Bool
  | 0, _ => false
  | fuel + 1, name =>
    isValidAccountLabel crypto name &&
      match getParentAccountName name with
      | none | some [] => true
      | some superName => isValidAccountNameFuel crypto fuel superName

/-- `is_valid_account_name( name )`; a name has fewer labels than characters and one. -/
def isValidAccountName (crypto : Crypto) (name : Name) : Bool :=
  isValidAccountNameFuel crypto (name.length + 1) name

namespace EvaluationState

variable (crypto : Crypto)

/-! ### Registration -/

/-- The fee of a delegate with this pay rate: `( max_reg_fee * pay_rate ) / 100`. -/
def requireDelegateFee (s : EvaluationState) (payRate : ℕ) : Fallible EvaluationState := do
  let maxRegFee ← s.currentState.getDelegateRegistrationFee
  s.requireFee (maxRegFee * payRate / 100)

/-- `register_account_operation::evaluate`. -/
def registerAccount (s : EvaluationState) (name : Name) (publicData : ℕ)
    (ownerKey activeKey : PublicKey) (delegatePayRate : ℕ) (metaData : Option ℕ) :
    Fallible EvaluationState := do
  let now := s.currentState.now
  require (isValidAccountName crypto name = true) (.invalidAccountName name)
  require (ptsInitialMinLength ≤ name.length)
    (.assertion "Account names shorter than 5 characters cannot be registered at this time.")
  let s ← s.requireFee s.currentState.getAccountRegistrationFee
  require (String.ofList name ∉ bannedNames)
    (.assertion "This account name is a reserved word. Operation failed.")
  require (s.currentState.getAccountRecordByName name).isNone (.accountAlreadyRegistered name)
  require (getParentAccountName name = none ∨ s.anyParentHasSigned crypto name = true)
    .missingParentAccountSignature
  require (s.currentState.getAccountRecordByAddress (crypto.keyAddress activeKey)).isNone
    (.accountKeyInUse activeKey)
  let (id, c) ← s.currentState.newAccountId
  let s := s.withState c
  let r : AccountRecord :=
    { id, name, publicData, ownerKey, registrationDate := now, lastUpdate := now }
  let r ← r.setActiveKey now activeKey
  let s ← if delegatePayRate ≤ 100 then s.requireDelegateFee delegatePayRate else pure s
  let r := { r with
    delegateInfo := if delegatePayRate ≤ 100 then some { payRate := delegatePayRate } else none
    metaData }
  return s.withState (s.currentState.storeAccountRecord crypto r)

/-! ### Updates -/

/-- The signature check of an update, with the change of the active key when it differs from
the current one. -/
def changeActiveKey (s : EvaluationState) (r : AccountRecord) (activeKey : Option PublicKey) :
    Fallible AccountRecord :=
  match activeKey.filter (· ≠ r.activeKey) with
  | some key => do
    require (s.currentState.getAccountRecordByAddress (crypto.keyAddress key)).isNone
      (.accountKeyInUse key)
    require (s.checkSignature (crypto.keyAddress r.ownerKey) = true ∨
      s.anyParentHasSigned crypto r.name = true) (.missingSignature (crypto.keyAddress r.ownerKey))
    r.setActiveKey s.currentState.now key
  | none => do
    require (s.accountOrAnyParentHasSigned crypto r = true)
      (.missingSignature (crypto.keyAddress r.ownerKey))
    return r

/-- The pay rate of an update: a delegate stays one and cannot raise its rate; any other
account may become a delegate for a fee. -/
def changePayRate (s : EvaluationState) (r : AccountRecord) (delegatePayRate : ℕ) :
    Fallible (EvaluationState × AccountRecord) :=
  match r.delegateInfo with
  | some info => do
    require (delegatePayRate ≤ 100) (.assertion "this->is_delegate()")
    require (delegatePayRate ≤ info.payRate)
      (.assertion "current_record->delegate_info->pay_rate >= this->delegate_pay_rate")
    return (s, { r with delegateInfo := some { info with payRate := delegatePayRate } })
  | none =>
    if delegatePayRate ≤ 100 then do
      let s ← s.requireDelegateFee delegatePayRate
      return (s, { r with delegateInfo := some { payRate := delegatePayRate } })
    else return (s, r)

/-- The second treatment of the active key in an update: set again, whether or not it
differs, and refused when any account is indexed under it. -/
def setUpdatedKey (s : EvaluationState) (r : AccountRecord) (activeKey : Option PublicKey) :
    Fallible AccountRecord :=
  match activeKey with
  | some key => do
    let r ← r.setActiveKey s.currentState.now key
    require (s.currentState.getAccountRecordByAddress (crypto.keyAddress key)).isNone
      (.accountKeyInUse key)
    return r
  | none => return r

/-- `update_account_operation::evaluate`. -/
def updateAccount (s : EvaluationState) (accountId : ℤ) (publicData : Option ℕ)
    (activeKey : Option PublicKey) (delegatePayRate : ℕ) : Fallible EvaluationState := do
  let r ← orThrow (s.currentState.getAccountRecord accountId) (.unknownAccountId accountId)
  require (r.isRetracted = false) .accountRetracted
  let r ← s.changeActiveKey crypto r activeKey
  let r := { r with publicData := publicData.getD r.publicData }
  let (s, r) ← s.changePayRate r delegatePayRate
  let r := { r with lastUpdate := s.currentState.now }
  let r ← s.setUpdatedKey crypto r activeKey
  return s.withState (s.currentState.storeAccountRecord crypto r)

/-! ### Delegate pay -/

/-- `withdraw_pay_operation::evaluate`: the pay leaves the account and its votes. -/
def withdrawPay (s : EvaluationState) (amount accountId : ℤ) : Fallible EvaluationState := do
  require (0 < amount) (.negativeWithdraw amount)
  let r ← orThrow (s.currentState.getAccountRecord |accountId|) (.unknownAccountId |accountId|)
  require (r.isRetracted = false) .accountRetracted
  let info ← orThrow r.delegateInfo (.notADelegate |accountId|)
  require (s.checkSignature (crypto.keyAddress r.activeKey) = true)
    (.missingSignature (crypto.keyAddress r.activeKey))
  let s := s.addNetVotes |accountId| (-amount)
  require (amount ≤ info.payBalance) .insufficientFunds
  let r := { r with
    delegateInfo := some { info with payBalance := wrap64 (info.payBalance - amount) } }
  let s := s.withState (s.currentState.storeAccountRecord crypto r)
  s.addBalance ⟨amount, 0⟩

end EvaluationState

end LarkX
