import NixStrixHalo.Library.PythonText

/-!
# The map from peers to devices

`rdma_probe` takes the device and the GID of a connection from two maps in the environment, whose
entries give a value to a peer by its address, by its address and port, or to any peer. The source
compares texts; here is what this means for the peers. However a map is spelled, its value for a
peer is that of the first mapping that names the peer, and where there is none the variable without
a map counts (`devEnv_gidEnv_mapText`).

## What the texts are

`Ipv4` and `Ipv6` are the texts that `inet_ntop` may give: digits and dots, or hexadecimal digits,
colons and a dotted part at the end. A `Key` is what a mapping is for, and its text is compared
with those of the peer. An address alone is never the text of another address with a port
(`Host.text_ne_withPort`): an IPv6 address has more colons than the one that separates a port.

## What the spelling may be

An `Entry` is a mapping with blanks around its parts, one without a value, or a text without an
equality sign. Commas and semicolons separate entries, and trimming removes the blanks around a key
and a value. Blanks and equality signs inside a value stay.
-/

namespace LlamaRdma

/-! ### The source -/

/-- The characters that `rdma_trim` drops. -/
def isBlank (c : Char) : Bool := c = ' ' || c = '\t' || c = '\r' || c = '\n'

/-- `rdma_trim`. -/
def rdmaTrim (value : List Char) : List Char :=
  ((value.dropWhile isBlank).reverse.dropWhile isBlank).reverse

def isSeparator (c : Char) : Bool := c = ',' || c = ';'

/-- What an entry of a map gives a peer. -/
def entryValue (peerHost peerHostPort entry : List Char) : Option (List Char) :=
  match (rdmaTrim entry).span (· ≠ '=') with
  | (key, '=' :: candidate) =>
    let key := rdmaTrim key
    let candidate := rdmaTrim candidate
    if candidate ≠ [] ∧ (key = peerHost ∨ key = peerHostPort ∨ key = ['*']) then some candidate
    else none
  | _ => none

/-- `rdma_peer_env_map`: the loop takes the entries between separators one after the other. -/
def rdmaPeerEnvMap (env : Option (List Char)) (peerHost peerHostPort : List Char) :
    Option (List Char) :=
  match env with
  | none | some [] => none
  | some entries => (entries.splitOnP isSeparator).findSome? (entryValue peerHost peerHostPort)

/-- The text that `inet_ntop` gives for an address. -/
structure Ipv4 where
  text : List Char
  chars : ∀ c ∈ text, c.isDigit ∨ c = '.'
  dot_mem : '.' ∈ text
deriving DecidableEq

/-- The text that `inet_ntop` gives for an address; a dotted part is at its end. -/
structure Ipv6 where
  text : List Char
  chars : ∀ c ∈ text, c.isDigit ∨ ('a' ≤ c ∧ c ≤ 'f') ∨ c = ':' ∨ c = '.'
  colon_mem : ':' ∈ text
  dot_not_mem : ∀ before after, text = before ++ ':' :: after → '.' ∉ before
deriving DecidableEq

inductive Host where
  | v4 (address : Ipv4)
  | v6 (address : Ipv6)
deriving DecidableEq

/-- `peer_host`. -/
def Host.text : Host → List Char
  | v4 address => address.text
  | v6 address => address.text

/-- `peer_host_port`. -/
def Host.withPort (port : UInt16) : Host → List Char
  | v4 address => address.text ++ ':' :: Nat.toDigits 10 port.toNat
  | v6 address => '[' :: (address.text ++ ']' :: ':' :: Nat.toDigits 10 port.toNat)

/-- What `rdma_socket_peer` finds. -/
structure Peer where
  host : Host
  port : UInt16

/-- The variables and their maps. -/
structure DeviceEnv where
  dev : Option (List Char)
  devMap : Option (List Char)
  gid : Option (List Char)
  gidMap : Option (List Char)

/-- A variable of `rdma_probe` with its map; `rdma_socket_peer` may find no peer. -/
def probedEnv (peer : Option Peer) (env envMap : Option (List Char)) : Option (List Char) :=
  match peer with
  | none => env
  | some p => (rdmaPeerEnvMap envMap p.host.text (p.host.withPort p.port)).or env

/-- `dev_env`. -/
def devEnv (peer : Option Peer) (env : DeviceEnv) : Option (List Char) :=
  probedEnv peer env.dev env.devMap

/-- `gid_env`. -/
def gidEnv (peer : Option Peer) (env : DeviceEnv) : Option (List Char) :=
  probedEnv peer env.gid env.gidMap

/-! ### Maps -/

/-- What a mapping is for. -/
inductive Key where
  | any
  | host (h : Host)
  | hostPort (h : Host) (port : UInt16)

def Key.text : Key → List Char
  | any => ['*']
  | host h => h.text
  | hostPort h port => h.withPort port

def Key.Names (peer : Peer) : Key → Prop
  | any => True
  | host h => h = peer.host
  | hostPort h port => h = peer.host ∧ port = peer.port

instance (peer : Peer) : (key : Key) → Decidable (key.Names peer)
  | .any => inferInstanceAs (Decidable True)
  | .host h => inferInstanceAs (Decidable (h = peer.host))
  | .hostPort h port => inferInstanceAs (Decidable (h = peer.host ∧ port = peer.port))

/-- A value of a map. It may have blanks and equality signs in it. -/
structure Value where
  text : List Char
  ne_nil : text ≠ []
  not_separator : ∀ c ∈ text, isSeparator c = false
  head : text.head?.any isBlank = false
  last : text.getLast?.any isBlank = false

abbrev Blanks := {s : List Char // ∀ c ∈ s, isBlank c}

/-- An entry of a map: a mapping with blanks around its parts, a mapping without a value, or a text
without an equality sign. -/
inductive Entry where
  | mapping (key : Key) (value : Value) (before beforeEq afterEq after : Blanks)
  | unset (key : Key) (before beforeEq after : Blanks)
  | ignored (text : List Char) (h : ∀ c ∈ text, isSeparator c = false ∧ c ≠ '=')

def Entry.text : Entry → List Char
  | mapping key value before beforeEq afterEq after =>
    before ++ (key.text ++ beforeEq ++ '=' :: (afterEq ++ value.text) ++ after)
  | unset key before beforeEq after => before ++ (key.text ++ beforeEq ++ ['='] ++ after)
  | ignored text _ => text

/-- The value that an entry gives a peer. -/
def Entry.valueFor (peer : Peer) : Entry → Option (List Char)
  | mapping key value _ _ _ _ => if key.Names peer then some value.text else none
  | unset _ _ _ _ => none
  | ignored _ _ => none

/-- A map, each of its entries with the separator before the next one. -/
def mapText : List (Entry × {c : Char // isSeparator c}) → List Char
  | [] => []
  | [(entry, _)] => entry.text
  | (entry, separator) :: entries => entry.text ++ separator.1 :: mapText entries

/-! ### Texts of keys -/

/-- Ports are told apart by their digits. -/
theorem port_inj {p q : UInt16} (h : Nat.toDigits 10 p.toNat = Nat.toDigits 10 q.toNat) :
    p = q := by
  have hread : ∀ n : ℕ, Nat.ofDigitChars 10 (Nat.toDigits 10 n) 0 = n := fun n ↦
    Nat.ofDigitChars_toDigits (by decide) (by decide)
  have hnat : p.toNat = q.toNat := by rw [← hread p.toNat, h, hread]
  exact UInt16.toNat_inj.1 hnat

/-- The characters in the texts of addresses. -/
def isHostChar (c : Char) : Bool := c.isDigit || ('a' ≤ c && c ≤ 'f') || c = ':' || c = '.'

/-- A host consists of host characters. -/
theorem Host.isHostChar_of_mem (h : Host) {c : Char} (hc : c ∈ h.text) : isHostChar c := by
  match h with
  | v4 address =>
    rcases address.chars c hc with h | h
    · simp [isHostChar, h]
    · simp [isHostChar, h]
  | v6 address =>
    rcases address.chars c hc with h | h | h | h
    · simp [isHostChar, h]
    · simp [isHostChar, h]
    · simp [isHostChar, h]
    · simp [isHostChar, h]

/-- An IPv4 address has no colon. -/
theorem Ipv4.colon_not_mem (address : Ipv4) : ':' ∉ address.text := by
  intro h
  rcases address.chars _ h with h | h
  · exact absurd h (by decide)
  · exact absurd h (by decide)

/-- Hosts are told apart by their texts. -/
theorem Host.text_inj {h k : Host} (heq : h.text = k.text) : h = k := by
  match h, k with
  | v4 ⟨_, _, _⟩, v4 ⟨_, _, _⟩ =>
    obtain rfl : _ = _ := heq
    rfl
  | v6 ⟨_, _, _, _⟩, v6 ⟨_, _, _, _⟩ =>
    obtain rfl : _ = _ := heq
    rfl
  | v4 a, v6 b =>
    have htext : a.text = b.text := heq
    exact absurd (htext ▸ b.colon_mem) a.colon_not_mem
  | v6 a, v4 b =>
    have htext : a.text = b.text := heq
    exact absurd (htext ▸ a.colon_mem) b.colon_not_mem

/-- The text of an address is not that of an address and a port. -/
theorem Host.text_ne_withPort (h k : Host) (port : UInt16) : h.text ≠ k.withPort port := by
  intro heq
  match k with
  | v6 b =>
    have hmem : '[' ∈ h.text := heq ▸ List.mem_cons_self
    exact absurd (h.isHostChar_of_mem hmem) (by decide)
  | v4 b =>
    match h with
    | v4 a =>
      have htext : a.text = b.text ++ ':' :: Nat.toDigits 10 port.toNat := heq
      exact absurd (htext ▸ List.mem_append_right _ List.mem_cons_self) a.colon_not_mem
    | v6 a => exact absurd b.dot_mem (a.dot_not_mem _ _ heq)

/-- A text is split at the first separator in one way only. -/
theorem append_cons_inj {s t s' t' : List Char} {c : Char} (hs : c ∉ s) (hs' : c ∉ s')
    (h : s ++ c :: t = s' ++ c :: t') : s = s' ∧ t = t' := by
  have hspan : ∀ {s t : List Char}, c ∉ s → (s ++ c :: t).span (· ≠ c) = (s, c :: t) := by
    intro s t hs
    refine PythonText.span_append (fun a ha ↦ ?_) (by simp)
    exact decide_eq_true fun heq ↦ hs (heq ▸ ha)
  have heq := (hspan hs).symm.trans (h ▸ hspan hs')
  obtain ⟨hs, ht⟩ := Prod.mk.inj heq
  exact ⟨hs, (List.cons.inj ht).2⟩

/-- A host and a port are told apart by the text that joins them. -/
theorem Host.withPort_inj {h k : Host} {p q : UInt16} (heq : h.withPort p = k.withPort q) :
    h = k ∧ p = q := by
  have hbracket : ∀ a : Ipv6, ']' ∉ a.text := fun a hmem ↦
    absurd ((v6 a).isHostChar_of_mem hmem) (by decide)
  have hhead : ∀ (a : Ipv4) (rest rest' : List Char), a.text ++ rest ≠ '[' :: rest' := by
    intro a rest rest' heq
    have hhead := congrArg List.head? heq
    have hmem : '[' ∈ a.text := by
      match htext : a.text, a.dot_mem with
      | c :: text, _ =>
        rw [htext] at hhead
        obtain rfl : c = '[' := by simpa using hhead
        exact List.mem_cons_self
    exact absurd ((v4 a).isHostChar_of_mem hmem) (by decide)
  match h, k with
  | v4 a, v4 b =>
    obtain ⟨htext, hport⟩ := append_cons_inj a.colon_not_mem b.colon_not_mem heq
    exact ⟨text_inj (h := v4 a) (k := v4 b) htext, port_inj hport⟩
  | v6 a, v6 b =>
    obtain ⟨htext, hport⟩ := append_cons_inj (hbracket a) (hbracket b) (List.cons.inj heq).2
    exact ⟨text_inj (h := v6 a) (k := v6 b) htext, port_inj (List.cons.inj hport).2⟩
  | v4 a, v6 b => exact absurd heq (hhead a _ _)
  | v6 a, v4 b => exact absurd heq.symm (hhead b _ _)

/-- The characters in the texts of keys. -/
def isKeyChar (c : Char) : Bool := isHostChar c || c = '*' || c = '[' || c = ']'

/-- A host with a port consists of characters of keys. -/
theorem Host.isKeyChar_of_mem_withPort (h : Host) {port : UInt16} {c : Char}
    (hc : c ∈ h.withPort port) : isKeyChar c := by
  have hport : ∀ c ∈ Nat.toDigits 10 port.toNat, isKeyChar c := by
    intro c hc
    have hdigit : c.isDigit := Nat.isDigit_of_mem_toDigits (by decide) le_rfl hc
    simp [isKeyChar, isHostChar, hdigit]
  have htext : ∀ c ∈ h.text, isKeyChar c := by
    intro c hc
    simp [isKeyChar, h.isHostChar_of_mem hc]
  match h with
  | v4 a =>
    rcases List.mem_append.1 hc with hc | hc
    · exact htext c hc
    rcases List.mem_cons.1 hc with rfl | hc
    · decide
    · exact hport c hc
  | v6 a =>
    rcases List.mem_cons.1 hc with rfl | hc
    · decide
    rcases List.mem_append.1 hc with hc | hc
    · exact htext c hc
    rcases List.mem_cons.1 hc with rfl | hc
    · decide
    rcases List.mem_cons.1 hc with rfl | hc
    · decide
    · exact hport c hc

/-- A key consists of characters of keys. -/
theorem Key.isKeyChar_of_mem (key : Key) {c : Char} (hc : c ∈ key.text) : isKeyChar c := by
  match key with
  | any =>
    obtain rfl := List.mem_singleton.1 hc
    decide
  | host h => simp [isKeyChar, h.isHostChar_of_mem hc]
  | hostPort h _ => exact h.isKeyChar_of_mem_withPort hc

/-- No key is empty. -/
theorem Key.text_ne_nil (key : Key) : key.text ≠ [] := by
  match key with
  | any => exact List.cons_ne_nil _ _
  | host (.v4 a) => exact List.ne_nil_of_mem a.dot_mem
  | host (.v6 a) => exact List.ne_nil_of_mem a.colon_mem
  | hostPort (.v4 a) _ => exact List.append_ne_nil_of_right_ne_nil _ (List.cons_ne_nil _ _)
  | hostPort (.v6 a) _ => exact List.cons_ne_nil _ _

/-- A key matches the texts of the peers that it names. -/
theorem Key.text_matches_iff (key : Key) (peer : Peer) :
    (key.text = peer.host.text ∨ key.text = peer.host.withPort peer.port ∨ key.text = ['*']) ↔
      key.Names peer := by
  have hstar : ∀ h : Host, h.text ≠ ['*'] := by
    intro h heq
    have hmem : '*' ∈ h.text := heq ▸ List.mem_cons_self
    exact absurd (h.isHostChar_of_mem hmem) (by decide)
  have hstar' : ∀ (h : Host) (port : UInt16), h.withPort port ≠ ['*'] := by
    intro h port heq
    have hmem : ':' ∈ h.withPort port := by
      match h with
      | .v4 a => exact List.mem_append_right _ List.mem_cons_self
      | .v6 a => simp [Host.withPort]
    rw [heq] at hmem
    exact absurd hmem (by decide)
  match key with
  | any => exact iff_of_true (Or.inr (Or.inr rfl)) trivial
  | host h =>
    show (h.text = _ ∨ h.text = _ ∨ h.text = _) ↔ h = peer.host
    constructor
    · rintro (heq | heq | heq)
      · exact Host.text_inj heq
      · exact absurd heq (h.text_ne_withPort _ _)
      · exact absurd heq (hstar h)
    · rintro rfl
      exact Or.inl rfl
  | hostPort h port =>
    show (h.withPort port = _ ∨ h.withPort port = _ ∨ h.withPort port = _) ↔
      h = peer.host ∧ port = peer.port
    constructor
    · rintro (heq | heq | heq)
      · exact absurd heq.symm (peer.host.text_ne_withPort _ _)
      · exact Host.withPort_inj heq
      · exact absurd heq (hstar' h port)
    · rintro ⟨rfl, rfl⟩
      exact Or.inr (Or.inl rfl)

/-! ### Entries -/

/-- Blanks at both ends are trimmed, and nothing else. -/
theorem rdmaTrim_append {before l after : List Char} (hbefore : ∀ c ∈ before, isBlank c)
    (hafter : ∀ c ∈ after, isBlank c) (hhead : l.head?.any isBlank = false)
    (hlast : l.getLast?.any isBlank = false) : rdmaTrim (before ++ (l ++ after)) = l :=
  PythonText.trim_append hbefore hafter hhead hlast

/-- What is left after trimming was there before. -/
theorem mem_of_mem_rdmaTrim {c : Char} {text : List Char} (h : c ∈ rdmaTrim text) : c ∈ text := by
  have hleft := (List.dropWhile_sublist isBlank).subset (List.mem_reverse.1 h)
  exact (List.dropWhile_sublist isBlank).subset (List.mem_reverse.1 hleft)

/-- The text of a key is taken whole. -/
theorem of_isKeyChar {c : Char} (h : isKeyChar c) :
    isBlank c = false ∧ isSeparator c = false ∧ c ≠ '=' := by
  have hne : ∀ d : Char, isKeyChar d = false → c ≠ d := fun _ ↦ PythonText.ne_of_class h
  refine ⟨?_, ?_, hne '=' (by decide)⟩
  · simp [isBlank, hne ' ' (by decide), hne '\t' (by decide), hne '\r' (by decide),
      hne '\n' (by decide)]
  · simp [isSeparator, hne ',' (by decide), hne ';' (by decide)]

section

variable (key : Key) (value : Value) (before beforeEq afterEq after : Blanks)

/-- No blank stands before a key. -/
theorem Key.any_head?_append (rest : List Char) :
    (key.text ++ rest).head?.any isBlank = false := by
  match htext : key.text, key.text_ne_nil with
  | c :: text, _ => exact (of_isKeyChar (key.isKeyChar_of_mem (htext ▸ List.mem_cons_self))).1

/-- No blank ends a key. -/
theorem Key.any_getLast?_text : key.text.getLast?.any isBlank = false := by
  match hlast : key.text.getLast? with
  | none => rfl
  | some c => exact (of_isKeyChar (key.isKeyChar_of_mem (List.mem_of_getLast? hlast))).1

/-- The blanks around a mapping are trimmed. -/
theorem rdmaTrim_mapping :
    rdmaTrim (Entry.mapping key value before beforeEq afterEq after).text =
      key.text ++ beforeEq ++ '=' :: (afterEq ++ value.text) := by
  have hlast : (key.text ++ beforeEq ++ '=' :: (afterEq ++ value.text)).getLast? =
      value.text.getLast? := by
    rw [List.getLast?_append_of_ne_nil _ (List.cons_ne_nil _ _), ← List.singleton_append,
      List.getLast?_append_of_ne_nil _ (List.append_ne_nil_of_right_ne_nil _ value.ne_nil),
      List.getLast?_append_of_ne_nil _ value.ne_nil]
  refine rdmaTrim_append before.2 after.2 ?_ (hlast ▸ value.last)
  rw [List.append_assoc]
  exact key.any_head?_append _

/-- The blanks around an entry without a value are trimmed. -/
theorem rdmaTrim_unset : rdmaTrim (Entry.unset key before beforeEq after).text =
    key.text ++ beforeEq ++ ['='] := by
  refine rdmaTrim_append before.2 after.2 ?_ ?_
  · rw [List.append_assoc]
    exact key.any_head?_append _
  · rw [List.getLast?_concat]
    rfl

/-- The key ends at the first equality sign. -/
theorem span_key (rest : List Char) : (key.text ++ beforeEq ++ '=' :: rest).span (· ≠ '=') =
    (key.text ++ beforeEq, '=' :: rest) := by
  refine PythonText.span_append (fun c hc ↦ decide_eq_true ?_) (by simp)
  rcases List.mem_append.1 hc with hc | hc
  · exact (of_isKeyChar (key.isKeyChar_of_mem hc)).2.2
  · rintro rfl
    exact absurd (beforeEq.2 _ hc) (by decide)

/-- The blanks between a key and its equals sign are trimmed. -/
theorem rdmaTrim_key : rdmaTrim (key.text ++ beforeEq) = key.text := by
  have hhead := key.any_head?_append []
  rw [List.append_nil] at hhead
  exact PythonText.trim_append (a := []) (fun _ h ↦ absurd h List.not_mem_nil) beforeEq.2 hhead
    key.any_getLast?_text

/-- The blanks between an equals sign and a value are trimmed. -/
theorem rdmaTrim_value : rdmaTrim (afterEq ++ value.text) = value.text := by
  have htrim := PythonText.trim_append (b := []) afterEq.2 (fun _ h ↦ absurd h List.not_mem_nil)
    value.head value.last
  rw [List.append_nil] at htrim
  exact htrim

end

/-- **What an entry is read as**: its value for this peer. -/
theorem entryValue_text (peer : Peer) (entry : Entry) :
    entryValue peer.host.text (peer.host.withPort peer.port) entry.text = entry.valueFor peer := by
  match entry with
  | .mapping key value before beforeEq afterEq after =>
    rw [entryValue, rdmaTrim_mapping, span_key]
    show (if rdmaTrim (afterEq ++ value.text) ≠ [] ∧ _ then _ else none) = _
    rw [rdmaTrim_key, rdmaTrim_value]
    exact if_congr ((and_iff_right value.ne_nil).trans (key.text_matches_iff peer)) rfl rfl
  | .unset key before beforeEq after =>
    rw [entryValue, rdmaTrim_unset, span_key]
    exact if_neg fun h ↦ h.1 rfl
  | .ignored text h =>
    have hspan : (rdmaTrim text).span (· ≠ '=') = (rdmaTrim text, []) :=
      PythonText.span_of_forall fun c hc ↦ decide_eq_true (h c (mem_of_mem_rdmaTrim hc)).2
    show entryValue _ _ text = none
    rw [entryValue, hspan]

/-! ### Maps -/

/-- A blank separates no entries. -/
theorem Blanks.isSeparator_of_mem (s : Blanks) : ∀ c ∈ s.1, isSeparator c = false := by
  intro c hc
  have hne : ∀ d : Char, isBlank d = false → c ≠ d := fun _ ↦ PythonText.ne_of_class (s.2 c hc)
  simp [isSeparator, hne ',' (by decide), hne ';' (by decide)]

/-- An entry has no separator in it. -/
theorem Entry.isSeparator_of_mem (entry : Entry) : ∀ c ∈ entry.text, isSeparator c = false := by
  match entry with
  | ignored text h => exact fun c hc ↦ (h c hc).1
  | unset key before beforeEq after =>
    intro c hc
    simp only [text, List.mem_append, List.mem_singleton] at hc
    rcases hc with hc | ((hc | hc) | rfl) | hc
    · exact before.isSeparator_of_mem c hc
    · exact (of_isKeyChar (key.isKeyChar_of_mem hc)).2.1
    · exact beforeEq.isSeparator_of_mem c hc
    · decide
    · exact after.isSeparator_of_mem c hc
  | mapping key value before beforeEq afterEq after =>
    intro c hc
    simp only [text, List.mem_append, List.mem_cons] at hc
    rcases hc with hc | ((hc | hc) | rfl | hc | hc) | hc
    · exact before.isSeparator_of_mem c hc
    · exact (of_isKeyChar (key.isKeyChar_of_mem hc)).2.1
    · exact beforeEq.isSeparator_of_mem c hc
    · decide
    · exact afterEq.isSeparator_of_mem c hc
    · exact value.not_separator c hc
    · exact after.isSeparator_of_mem c hc

/-- The entries of a map are found again. -/
theorem splitOnP_mapText {entries : List (Entry × {c : Char // isSeparator c})}
    (h : entries ≠ []) :
    (mapText entries).splitOnP isSeparator = entries.map fun e ↦ e.1.text := by
  induction entries with
  | nil => exact absurd rfl h
  | cons e entries ih =>
    match entries with
    | [] => exact List.splitOnP_eq_singleton e.1.isSeparator_of_mem
    | next :: entries =>
      rw [mapText, List.splitOnP_append_cons_of_forall_mem e.1.isSeparator_of_mem _ e.2.2,
        ih (List.cons_ne_nil _ _)]
      · rfl
      · exact List.cons_ne_nil _ _

/-- An empty map has no entries, as one without an entry would have. -/
theorem rdmaPeerEnvMap_some (text peerHost peerHostPort : List Char) :
    rdmaPeerEnvMap (some text) peerHost peerHostPort =
      (text.splitOnP isSeparator).findSome? (entryValue peerHost peerHostPort) := by
  match text with
  | [] => rfl
  | _ :: _ => rfl

/-- With a peer and a map, the first entry for the peer decides, and the plain variable where there
is none. -/
theorem probedEnv_mapText (peer : Peer) (env : Option (List Char))
    (entries : List (Entry × {c : Char // isSeparator c})) :
    probedEnv (some peer) env (some (mapText entries)) =
      (entries.findSome? fun e ↦ e.1.valueFor peer).or env := by
  rw [probedEnv, rdmaPeerEnvMap_some]
  match entries with
  | [] => rfl
  | e :: entries =>
    rw [splitOnP_mapText (List.cons_ne_nil _ _), List.findSome?_map]
    exact congrArg (fun value ↦ Option.or (List.findSome? value (e :: entries)) env)
      (funext fun e ↦ entryValue_text peer e.1)

/-- **The first mapping that names the peer counts**, however the maps are spelled: `rdma_probe`
takes the device and the GID that it has, and those of the variables without a map where no mapping
with a value names the peer. -/
theorem devEnv_gidEnv_mapText (peer : Peer) (dev gid : Option (List Char))
    (devices gids : List (Entry × {c : Char // isSeparator c})) :
    devEnv (some peer) ⟨dev, some (mapText devices), gid, some (mapText gids)⟩ =
        (devices.findSome? fun e ↦ e.1.valueFor peer).or dev ∧
      gidEnv (some peer) ⟨dev, some (mapText devices), gid, some (mapText gids)⟩ =
        (gids.findSome? fun e ↦ e.1.valueFor peer).or gid :=
  ⟨probedEnv_mapText peer dev devices, probedEnv_mapText peer gid gids⟩

/-- An entry for another port, one without a value and one for every peer. -/
example : devEnv (some ⟨.v4 ⟨"10.0.0.2".toList, by decide, by decide⟩, 50052⟩)
    ⟨none, some "10.0.0.2:50053=a; 10.0.0.2 = ,* = mlx5_0".toList, none, none⟩ =
      some "mlx5_0".toList := by
  decide

end LlamaRdma
