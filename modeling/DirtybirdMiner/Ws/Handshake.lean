import DirtybirdMiner.Lib.Casing
import DirtybirdMiner.Ws.Base64
import DirtybirdMiner.Ws.Reassembly

/-!
The opening of a websocket connection, from `src/ws.rs`: the request, the head of the
response and what the client requires of it.  Bytes that arrive behind the head belong to
the first frames.

The SHA-1 digest is not part of the source, nor is the reading of bytes as text, which for
ASCII is the characters themselves.
-/

namespace DirtybirdMiner.Ws.Handshake

open DirtybirdMiner.Lib.Casing
open DirtybirdMiner.Ws.Base64
open DirtybirdMiner.Ws.Frames
open DirtybirdMiner.Ws.Reassembly

abbrev Text : Type := List Char

section Strings

/-- The characters that `char::is_whitespace` holds of. -/
def isWhitespace (c : Char) : Bool :=
  (9 ≤ c.toNat ∧ c.toNat ≤ 13) ∨ c.toNat = 0x20 ∨ c.toNat = 0x85 ∨ c.toNat = 0xa0 ∨
    c.toNat = 0x1680 ∨ (0x2000 ≤ c.toNat ∧ c.toNat ≤ 0x200a) ∨ c.toNat = 0x2028 ∨
    c.toNat = 0x2029 ∨ c.toNat = 0x202f ∨ c.toNat = 0x205f ∨ c.toNat = 0x3000

def trimStart (s : Text) : Text := s.dropWhile isWhitespace

def trimEnd (s : Text) : Text := (s.reverse.dropWhile isWhitespace).reverse

/-- `str::trim`. -/
def trim (s : Text) : Text := trimEnd (trimStart s)

/-- A line ends in a line feed, and a carriage return before it is not part of the line. -/
def stripReturn (line : Text) : Text :=
  if line.getLast? = some '\r' then line.dropLast else line

/-- The lines behind what has been read of the first one. -/
def linesFrom : Text → Text → List Text
  | line, [] => if line = [] then [] else [line]
  | line, c :: rest =>
      if c = '\n' then stripReturn line :: linesFrom [] rest else linesFrom (line ++ [c]) rest

/-- `str::lines`. -/
def lines (s : Text) : List Text := linesFrom [] s

/-- `str::split_whitespace`. -/
def splitWhitespace (s : Text) : List Text := (s.splitOnP isWhitespace).filter fun word => word ≠ []

/-- `str::split_once`, at a colon. -/
def splitOnce (s : Text) : Option (Text × Text) :=
  if ':' ∈ s then some (s.takeWhile (· ≠ ':'), (s.dropWhile (· ≠ ':')).drop 1) else none

def eqIgnoreAsciiCase (s t : Text) : Bool := s.map Char.toLower = t.map Char.toLower

end Strings

section Client

/-- `find_subslice`, for a needle that is not empty. -/
def findSubslice (needle : List UInt8) : List UInt8 → Option Nat
  | [] => none
  | b :: rest =>
      if needle.isPrefixOf (b :: rest) then some 0 else (findSubslice needle rest).map (· + 1)

/-- `b"\r\n\r\n"`. -/
def headEnd : List UInt8 := [13, 10, 13, 10]

inductive HandshakeError where
  | oversized
  | closed (head : Text)
  | rejected (head : Text)
  | badAccept
  /-- An error of the stream itself, handed on. -/
  | stream
deriving DecidableEq

def HandshakeError.message : HandshakeError → String
  | oversized => "ws: oversized handshake response"
  | closed head => "ws: connection closed during handshake: " ++ String.ofList head
  | rejected head => "ws: handshake rejected: " ++ String.ofList head
  | badAccept => "ws: bad Sec-WebSocket-Accept"
  | stream => ""

/-- How the loop that reads the head ends: with the head and what came behind it. -/
inductive Head where
  | found (head leftover : List UInt8)
  | failed (error : HandshakeError)
  /-- The loop waits in a read. -/
  | blocked
deriving DecidableEq

/-- What ends the loop before it reads again. -/
def headTest (head : List UInt8) : Option Head :=
  match findSubslice headEnd head with
  | some pos => some (.found (head.take (pos + 4)) (head.drop (pos + 4)))
  | none => if head.length > 64 * 1024 then some (.failed .oversized) else none

-- `String::from_utf8_lossy` and the digest of the SHA-1 crate.
variable (lossy : List UInt8 → Text) (sha1 : List UInt8 → List UInt8)

/-- The loop, with the reads to come and the bytes read so far. -/
def readHead : List ReadResult → List UInt8 → Head × List ReadResult
  | [], head => ((headTest head).getD .blocked, [])
  | r :: reads, head =>
      match headTest head with
      | some result => (result, r :: reads)
      | none =>
          match r with
          | .data [] => (.failed (.closed (lossy head)), reads)
          | .data bytes => readHead reads (head ++ bytes)
          | _ => (.failed .stream, reads)

/-- `WS_GUID`. -/
def wsGuid : Text := "258EAFA5-E914-47DA-95CA-C5AB0DC85B11".toList

def computeAccept (key : Text) : Text := base64Encode (sha1 (utf8 key ++ utf8 wsGuid))

def request (host path key : Text) : Text :=
  "GET ".toList ++ path ++ " HTTP/1.1\r\nHost: ".toList ++ host ++
    "\r\nUpgrade: websocket\r\nConnection: Upgrade\r\nSec-WebSocket-Key: ".toList ++ key ++
    "\r\nSec-WebSocket-Version: 13\r\n\r\n".toList

/-- The loop over the header lines: the last header with the name decides. -/
def acceptOk (expected : Text) (headers : List Text) : Bool :=
  headers.foldl (fun ok line =>
    match splitOnce line with
    | some (name, value) =>
        if eqIgnoreAsciiCase (trim name) "sec-websocket-accept".toList then trim value = expected
        else ok
    | none => ok) false

/-- What is required of the head. -/
def checkHead (expected head : Text) : Except HandshakeError Unit :=
  let statusLine := (lines head).headD []
  let code := (splitWhitespace statusLine).getD 1 []
  if code ≠ "101".toList then .error (.rejected (trimEnd head))
  else if acceptOk expected ((lines head).drop 1) then .ok ()
  else .error .badAccept

/-- How the handshake ends. -/
inductive Opening where
  | connected (client : WsClient)
  | failed (error : HandshakeError)
  | blocked
deriving DecidableEq

/-- A handshake: what it writes, how it ends and the reads it leaves. -/
structure Attempt where
  written : List UInt8
  opening : Opening
  rest : List ReadResult

/-- The sixteen bytes of the key are random; the request may fail to be written. -/
def handshake (keyBytes : List UInt8) (writeOk : Bool) (host path : Text)
    (reads : List ReadResult) : Attempt :=
  let key := base64Encode keyBytes
  if writeOk = false then { written := [], opening := .failed .stream, rest := reads }
  else
    let written := utf8 (request host path key)
    match readHead lossy reads [] with
    | (.blocked, rest) => { written, opening := .blocked, rest }
    | (.failed e, rest) => { written, opening := .failed e, rest }
    | (.found head leftover, rest) =>
        match checkHead (computeAccept sha1 key) (lossy head) with
        | .error e => { written, opening := .failed e, rest }
        | .ok _ => { written, opening := .connected (.start leftover), rest }

/-- A client that the handshake returns has read what came behind the head, and nothing more. -/
theorem handshake_client {keyBytes : List UInt8} {writeOk : Bool} {host path : Text}
    {reads : List ReadResult} {client : WsClient}
    (h : (handshake lossy sha1 keyBytes writeOk host path reads).opening = .connected client) :
    ∃ leftover, client = .start leftover := by
  unfold handshake at h
  dsimp only at h
  split at h
  · cases h
  split at h
  · cases h
  · cases h
  · split at h
    · cases h
    · cases h
      exact ⟨_, rfl⟩

end Client

section Search

theorem findSubslice_eq_some {needle s : List UInt8} {p : Nat}
    (h : findSubslice needle s = some p) :
    needle <+: s.drop p ∧ ∀ i < p, ¬needle <+: s.drop i := by
  induction s generalizing p with
  | nil => cases h
  | cons b rest ih =>
      rw [findSubslice] at h
      split at h
      · rename_i hprefix
        obtain rfl : 0 = p := Option.some.inj h
        exact ⟨List.isPrefixOf_iff_prefix.mp hprefix, fun i hi => absurd hi (Nat.not_lt_zero i)⟩
      · rename_i hprefix
        obtain ⟨q, hq, rfl⟩ := Option.map_eq_some_iff.mp h
        obtain ⟨hat, hbefore⟩ := ih hq
        refine ⟨hat, fun i hi => ?_⟩
        cases i with
        | zero => exact fun h => hprefix (List.isPrefixOf_iff_prefix.mpr h)
        | succ i => exact hbefore i (Nat.lt_of_succ_lt_succ hi)

theorem findSubslice_isSome {needle s : List UInt8} {p : Nat} (hne : needle ≠ [])
    (h : needle <+: s.drop p) : ∃ q, findSubslice needle s = some q := by
  induction s generalizing p with
  | nil =>
      rw [List.drop_nil] at h
      exact absurd (List.prefix_nil.mp h) hne
  | cons b rest ih =>
      rw [findSubslice]
      split
      · exact ⟨0, rfl⟩
      · rename_i hprefix
        cases p with
        | zero => exact absurd (List.isPrefixOf_iff_prefix.mpr h) hprefix
        | succ p =>
            obtain ⟨q, hq⟩ := ih h
            exact ⟨q + 1, by rw [hq]; rfl⟩

theorem findSubslice_eq_some_of {needle s : List UInt8} {p : Nat} (hne : needle ≠ [])
    (hat : needle <+: s.drop p) (hbefore : ∀ i < p, ¬needle <+: s.drop i) :
    findSubslice needle s = some p := by
  obtain ⟨q, hq⟩ := findSubslice_isSome hne hat
  obtain ⟨hqat, hqbefore⟩ := findSubslice_eq_some hq
  rcases Nat.lt_trichotomy p q with hlt | rfl | hgt
  · exact absurd hat (hqbefore p hlt)
  · exact hq
  · exact absurd hqat (hbefore q hgt)

end Search

section Cutting

/-- A part of the stream shows the needle where the whole stream does, if it reaches
that far. -/
theorem prefix_drop_append {needle s t : List UInt8} {i : Nat} :
    needle <+: s.drop i → needle <+: (s ++ t).drop i := by
  intro h
  rw [List.drop_append]
  exact h.trans (List.prefix_append _ _)

theorem prefix_drop_of_append {needle s t : List UInt8} {i : Nat}
    (h : needle <+: (s ++ t).drop i) (hlen : i + needle.length ≤ s.length) :
    needle <+: s.drop i := by
  rw [List.drop_append_of_le_length (by omega)] at h
  exact List.prefix_of_prefix_length_le h (List.prefix_append _ _) (by rw [List.length_drop]; omega)

theorem headTest_found {s t : List UInt8} {p : Nat} (h : findSubslice headEnd (s ++ t) = some p)
    (hlen : p + 4 ≤ s.length) :
    headTest s = some (.found (s.take (p + 4)) (s.drop (p + 4))) := by
  obtain ⟨hat, hbefore⟩ := findSubslice_eq_some h
  have hfind : findSubslice headEnd s = some p :=
    findSubslice_eq_some_of (by decide) (prefix_drop_of_append hat hlen)
      fun i hi hs => hbefore i hi (prefix_drop_append hs)
  rw [headTest, hfind]

theorem headTest_more {s t : List UInt8} {p : Nat} (h : findSubslice headEnd (s ++ t) = some p)
    (hlen : s.length < p + 4) (hshort : p + 4 ≤ 65537) : headTest s = none := by
  obtain ⟨hat, hbefore⟩ := findSubslice_eq_some h
  have hfind : findSubslice headEnd s = none := by
    cases hq : findSubslice headEnd s with
    | none => rfl
    | some q =>
        obtain ⟨hqat, -⟩ := findSubslice_eq_some hq
        have hq4 : q + 4 ≤ s.length := by
          have hle := hqat.length_le
          rw [List.length_drop] at hle
          change 4 ≤ _ at hle
          omega
        exact absurd (prefix_drop_append hqat) (hbefore q (by omega))
  rw [headTest, hfind]
  exact if_neg (by omega)

variable (lossy : List UInt8 → Text)

theorem readHead_of_test {head : List UInt8} {result : Head} (h : headTest head = some result)
    (reads : List ReadResult) : readHead lossy reads head = (result, reads) := by
  cases reads with
  | nil => simp only [readHead, h, Option.getD_some]
  | cons r reads => unfold readHead; rw [h]

theorem readHead_data {head chunk : List UInt8} (h : headTest head = none) (hne : chunk ≠ [])
    (reads : List ReadResult) :
    readHead lossy (.data chunk :: reads) head = readHead lossy reads (head ++ chunk) := by
  obtain ⟨b, bytes, rfl⟩ := List.exists_cons_of_ne_nil hne
  conv_lhs => unfold readHead
  rw [h]

/-- However the bytes are cut, the loop stops with the same head, and it leaves what it has
not read. -/
theorem readHead_found (chunks : List (List UInt8)) (hchunks : ∀ chunk ∈ chunks, chunk ≠ [])
    (reads : List ReadResult) (head : List UInt8) {p : Nat}
    (hfind : findSubslice headEnd (head ++ chunks.flatten) = some p) (hshort : p + 4 ≤ 65537) :
    ∃ (made later : List (List UInt8)) (leftover : List UInt8), chunks = made ++ later ∧
      readHead lossy (chunks.map .data ++ reads) head =
        (.found ((head ++ chunks.flatten).take (p + 4)) leftover, later.map .data ++ reads) ∧
      (head ++ chunks.flatten).take (p + 4) ++ leftover = head ++ made.flatten := by
  induction chunks generalizing head with
  | nil =>
      rw [List.flatten_nil, List.append_nil] at hfind ⊢
      have hp : p + 4 ≤ head.length := by
        have hle := (findSubslice_eq_some hfind).1.length_le
        rw [List.length_drop] at hle
        change 4 ≤ _ at hle
        omega
      have htest := headTest_found (s := head) (t := []) (by rwa [List.append_nil]) hp
      exact ⟨[], [], head.drop (p + 4), rfl, readHead_of_test lossy htest reads, by simp⟩
  | cons chunk chunks ih =>
      obtain ⟨hne, hrest⟩ := List.forall_mem_cons.mp hchunks
      rw [List.map_cons, List.cons_append]
      rcases Nat.lt_or_ge head.length (p + 4) with hlt | hge
      · rw [readHead_data lossy (headTest_more hfind hlt hshort) hne]
        rw [List.flatten_cons, ← List.append_assoc] at hfind ⊢
        obtain ⟨made, later, leftover, rfl, hread, hbytes⟩ := ih hrest (head ++ chunk) hfind
        refine ⟨chunk :: made, later, leftover, rfl, hread, ?_⟩
        rw [hbytes, List.flatten_cons, List.append_assoc]
      · rw [readHead_of_test lossy (headTest_found hfind hge)]
        have htake : (head ++ (chunk :: chunks).flatten).take (p + 4) = head.take (p + 4) :=
          List.take_append_of_le_length hge
        refine ⟨[], chunk :: chunks, head.drop (p + 4), rfl, by rw [htake]; rfl, ?_⟩
        rw [htake, List.take_append_drop]
        simp

end Cutting

section Responses

/-- The lines of a response head. -/
structure Response where
  statusLine : Text
  headers : List Text
  line_ok : ∀ line ∈ statusLine :: headers, line ≠ [] ∧ '\n' ∉ line

def Response.text (r : Response) : Text :=
  (r.statusLine :: r.headers).flatMap (· ++ ['\r', '\n']) ++ ['\r', '\n']

def Response.bytes (r : Response) : List UInt8 := utf8 r.text

/-- The headers with the name that is looked for. -/
def isAccept (header : Text × Text) : Bool :=
  eqIgnoreAsciiCase (trim header.1) "sec-websocket-accept".toList

/-- The value of the last header with the name that is looked for. -/
def Response.accept (r : Response) : Option Text :=
  ((r.headers.filterMap splitOnce).filter isAccept).getLast?.map fun header => trim header.2

/-- What the client is to do with the response. -/
def Response.verdict (r : Response) (expected : Text) : Except HandshakeError Unit :=
  if (splitWhitespace r.statusLine).getD 1 [] ≠ "101".toList then
    .error (.rejected (trimEnd r.text))
  else if r.accept = some expected then .ok ()
  else .error .badAccept

theorem linesFrom_line {line : Text} (h : '\n' ∉ line) (read rest : Text) :
    linesFrom read (line ++ '\r' :: '\n' :: rest) = (read ++ line) :: linesFrom [] rest := by
  induction line generalizing read with
  | nil =>
      rw [List.nil_append, linesFrom, if_neg (by decide), linesFrom, if_pos rfl, stripReturn,
        List.append_nil]
      simp
  | cons c line ih =>
      rw [List.mem_cons, not_or] at h
      rw [List.cons_append, linesFrom, if_neg (Ne.symm h.1), ih h.2, List.append_assoc]
      rfl

theorem linesFrom_lines {ls : List Text} (h : ∀ line ∈ ls, '\n' ∉ line) (rest : Text) :
    linesFrom [] (ls.flatMap (· ++ ['\r', '\n']) ++ rest) = ls ++ linesFrom [] rest := by
  induction ls with
  | nil => rfl
  | cons line ls ih =>
      obtain ⟨hline, hls⟩ := List.forall_mem_cons.mp h
      rw [List.flatMap_cons, List.append_assoc, List.append_assoc]
      change linesFrom [] (line ++ '\r' :: '\n' :: _) = _
      rw [linesFrom_line hline]
      exact congrArg (line :: ·) (ih hls)

theorem Response.lines_text (r : Response) :
    lines r.text = r.statusLine :: (r.headers ++ [[]]) := by
  rw [lines, Response.text, linesFrom_lines fun line hline => (r.line_ok line hline).2]
  rfl

theorem acceptOk_eq (expected : Text) (ls : List Text) :
    acceptOk expected ls = ((((ls.filterMap splitOnce).filter isAccept).getLast?.map
      fun header => decide (trim header.2 = expected)).getD false) := by
  unfold acceptOk
  generalize false = ok
  induction ls generalizing ok with
  | nil => rfl
  | cons line ls ih =>
      rw [List.foldl_cons, ih]
      cases hsplit : splitOnce line with
      | none => rw [List.filterMap_cons_none hsplit]
      | some header =>
          rw [List.filterMap_cons_some hsplit, List.filter_cons]
          have hlast : (if isAccept header = true then
              header :: (ls.filterMap splitOnce).filter isAccept
            else (ls.filterMap splitOnce).filter isAccept).getLast? =
              ((ls.filterMap splitOnce).filter isAccept).getLast?.or
                (if isAccept header = true then some header else none) := by
            split
            · rw [List.getLast?_cons]
              cases ((ls.filterMap splitOnce).filter isAccept).getLast? <;> rfl
            · rw [Option.or_none]
          rw [hlast]
          cases ((ls.filterMap splitOnce).filter isAccept).getLast? with
          | some last => rfl
          | none =>
              change (if isAccept header = true then decide (trim header.2 = expected) else ok) = _
              split <;> rfl

theorem Response.checkHead_text (r : Response) (expected : Text) :
    checkHead expected r.text = r.verdict expected := by
  have haccept : acceptOk expected (r.headers ++ [[]]) = decide (r.accept = some expected) := by
    have hempty : [([] : Text)].filterMap splitOnce = [] := rfl
    rw [acceptOk_eq, List.filterMap_append, hempty, List.append_nil, Response.accept]
    cases ((r.headers.filterMap splitOnce).filter isAccept).getLast? with
    | none => simp
    | some header => simp
  have hstatus : (lines r.text).headD [] = r.statusLine := by rw [r.lines_text]; rfl
  have hheaders : (lines r.text).drop 1 = r.headers ++ [[]] := by rw [r.lines_text]; rfl
  simp only [checkHead, Response.verdict, hstatus, hheaders, haccept, decide_eq_true_eq]

end Responses

section Boundary

/-- A line without a line feed does not begin with the end of a line. -/
theorem crlf_not_prefix {line rest : List UInt8} (hne : line ≠ []) (h : 10 ∉ line) :
    ¬[13, 10] <+: line ++ 13 :: rest := by
  obtain ⟨x, line, rfl⟩ := List.exists_cons_of_ne_nil hne
  rw [List.mem_cons, not_or] at h
  intro hprefix
  rw [List.cons_append, List.cons_prefix_cons] at hprefix
  cases line with
  | nil => exact absurd (List.cons_prefix_cons.mp hprefix.2).1 (by decide)
  | cons y line =>
      exact h.2 (List.mem_cons.mpr (.inl (List.cons_prefix_cons.mp hprefix.2).1))

/-- The bytes of lines, each with its end, and of an empty line. -/
def linesBytes (ls : List (List UInt8)) : List UInt8 := ls.flatMap (· ++ [13, 10]) ++ [13, 10]

theorem headEnd_not_prefix {ls : List (List UInt8)} (h : ∀ line ∈ ls, line ≠ [] ∧ 10 ∉ line)
    (rest : List UInt8) {i : Nat} (hi : i + 4 < (linesBytes ls).length) :
    ¬headEnd <+: (linesBytes ls ++ rest).drop i := by
  induction ls generalizing i with
  | nil => exact absurd hi (by change ¬i + 4 < 2; omega)
  | cons line ls ih =>
      obtain ⟨⟨hne, hline⟩, hls⟩ := List.forall_mem_cons.mp h
      have hbytes : linesBytes (line :: ls) ++ rest =
          line ++ 13 :: 10 :: (linesBytes ls ++ rest) := by
        simp [linesBytes, List.flatMap_cons]
      have hlength : (linesBytes (line :: ls)).length = line.length + 2 + (linesBytes ls).length := by
        simp [linesBytes, List.flatMap_cons]
        omega
      have hcrlf : [13, 10] <+: headEnd := ⟨[13, 10], rfl⟩
      rw [hbytes]
      intro hprefix
      rcases Nat.lt_trichotomy i line.length with hlt | rfl | hgt
      · rw [List.drop_append_of_le_length hlt.le] at hprefix
        refine crlf_not_prefix ?_ (fun hmem => hline (List.mem_of_mem_drop hmem))
          (hcrlf.trans hprefix)
        intro hnil
        rw [List.drop_eq_nil_iff] at hnil
        omega
      · rw [List.drop_left] at hprefix
        have hnext : [13, 10] <+: linesBytes ls ++ rest := by
          rw [headEnd, List.cons_prefix_cons, List.cons_prefix_cons] at hprefix
          exact hprefix.2.2
        cases ls with
        | nil =>
            change line.length + 4 < _ at hi
            rw [hlength] at hi
            exact absurd hi (by change ¬line.length + 4 < line.length + 2 + 2; omega)
        | cons next ls =>
            obtain ⟨⟨hne', hline'⟩, -⟩ := List.forall_mem_cons.mp hls
            have hsplit : linesBytes (next :: ls) ++ rest =
                next ++ 13 :: 10 :: (linesBytes ls ++ rest) := by
              simp [linesBytes, List.flatMap_cons]
            rw [hsplit] at hnext
            exact crlf_not_prefix hne' hline' hnext
      · rw [List.drop_append, List.drop_eq_nil_of_le hgt.le, List.nil_append] at hprefix
        obtain ⟨k, rfl⟩ : ∃ k, i = line.length + (k + 1) := ⟨i - line.length - 1, by omega⟩
        rw [Nat.add_sub_cancel_left, List.drop_succ_cons] at hprefix
        cases k with
        | zero => exact absurd (List.cons_prefix_cons.mp hprefix).1 (by decide)
        | succ k =>
            rw [List.drop_succ_cons] at hprefix
            exact ih hls (by omega) hprefix

theorem findSubslice_linesBytes {ls : List (List UInt8)} (hne : ls ≠ [])
    (h : ∀ line ∈ ls, line ≠ [] ∧ 10 ∉ line) (rest : List UInt8) :
    findSubslice headEnd (linesBytes ls ++ rest) = some ((linesBytes ls).length - 4) := by
  -- the last line's end and the empty line are the four bytes
  obtain ⟨before, hsplit⟩ : ∃ before, linesBytes ls = before ++ headEnd := by
    obtain ⟨last, hlast⟩ := List.getLast?_isSome.mpr hne |> Option.isSome_iff_exists.mp
    obtain ⟨init, rfl⟩ := List.getLast?_eq_some_iff.mp hlast
    exact ⟨init.flatMap (· ++ [13, 10]) ++ last, by simp [linesBytes, headEnd]⟩
  have hlength : (linesBytes ls).length - 4 = before.length := by
    rw [hsplit, List.length_append]
    exact Nat.add_sub_cancel _ 4
  refine findSubslice_eq_some_of (by decide) ?_ fun i hi => headEnd_not_prefix h rest (by omega)
  rw [hlength, hsplit, List.append_assoc, List.drop_left]
  exact List.prefix_append _ _

/-- A line feed is one byte, which is no part of another character. -/
theorem utf8_line {line : Text} (hne : line ≠ []) (h : '\n' ∉ line) :
    utf8 line ≠ [] ∧ 10 ∉ utf8 line := by
  constructor
  · intro hnil
    have hle := length_le_utf8 line
    rw [hnil] at hle
    exact hne (List.length_eq_zero_iff.mp (Nat.le_zero.mp hle))
  · intro hmem
    obtain ⟨c, hc, hb⟩ := List.mem_flatMap.mp hmem
    have hascii := ascii_of_byte hb (by decide)
    rw [utf8EncodeChar_ascii hascii, List.mem_singleton] at hb
    have hcode : c.toNat = 10 := by
      have hlt : c.toNat < 128 := hascii
      have hbyte := congrArg UInt8.toNat hb
      rw [UInt8.toNat_ofNat', Nat.mod_eq_of_lt (by omega)] at hbyte
      exact hbyte.symm
    have hchar : c = '\n' := by rw [← Char.ofNat_toNat c, hcode]
    exact h (hchar ▸ hc)

theorem Response.bytes_eq (r : Response) :
    r.bytes = linesBytes ((r.statusLine :: r.headers).map utf8) := by
  have hend : utf8 ['\r', '\n'] = [13, 10] := by decide
  rw [Response.bytes, Response.text, utf8_append, hend, linesBytes]
  congr 1
  induction r.statusLine :: r.headers with
  | nil => rfl
  | cons line ls ih =>
      rw [List.flatMap_cons, utf8_append, utf8_append, hend, ih]
      rfl

/-- The head ends where the response does, whatever follows it. -/
theorem Response.findSubslice_bytes (r : Response) (rest : List UInt8) :
    findSubslice headEnd (r.bytes ++ rest) = some (r.bytes.length - 4) ∧ 4 ≤ r.bytes.length := by
  have hlines : ∀ line ∈ (r.statusLine :: r.headers).map utf8, line ≠ [] ∧ 10 ∉ line := by
    intro line hline
    obtain ⟨text, htext, rfl⟩ := List.mem_map.mp hline
    exact utf8_line (r.line_ok text htext).1 (r.line_ok text htext).2
  rw [r.bytes_eq]
  refine ⟨findSubslice_linesBytes (List.cons_ne_nil _ _) hlines rest, ?_⟩
  simp [linesBytes]
  omega

end Boundary

section Connection

variable (lossy : List UInt8 → Text) (sha1 : List UInt8 → List UInt8)

/-- How a handshake ends whose head has this verdict. -/
def Opening.ofVerdict (leftover : List UInt8) : Except HandshakeError Unit → Opening
  | .error e => .failed e
  | .ok _ => .connected (.start leftover)

/-- However the bytes are cut into reads, the handshake ends as the lines of the response say:
with a connection if the code is 101 and the last header with the name carries the digest.
What arrives behind the head is kept, in the client or for its reads. -/
theorem handshake_verdict (r : Response) (hshort : r.bytes.length ≤ 65537)
    (hlossy : lossy r.bytes = r.text) (chunks : List (List UInt8))
    (hchunks : ∀ chunk ∈ chunks, chunk ≠ []) (rest : List UInt8)
    (hcut : chunks.flatten = r.bytes ++ rest) (keyBytes : List UInt8) (host path : Text)
    (reads : List ReadResult) :
    ∃ (made later : List (List UInt8)) (leftover : List UInt8),
      chunks = made ++ later ∧ leftover ++ later.flatten = rest ∧
      handshake lossy sha1 keyBytes true host path (chunks.map .data ++ reads) =
        { written := utf8 (request host path (base64Encode keyBytes))
          opening := .ofVerdict leftover
            (r.verdict (computeAccept sha1 (base64Encode keyBytes)))
          rest := later.map .data ++ reads } := by
  obtain ⟨hfind, hlen⟩ := r.findSubslice_bytes rest
  have hsub : r.bytes.length - 4 + 4 = r.bytes.length := Nat.sub_add_cancel hlen
  rw [← hcut] at hfind
  obtain ⟨made, later, leftover, rfl, hread, hbytes⟩ :=
    readHead_found lossy chunks hchunks reads [] hfind (hsub ▸ hshort)
  rw [List.nil_append, hcut, hsub, List.take_left] at hread hbytes
  refine ⟨made, later, leftover, rfl, ?_, ?_⟩
  · rw [List.nil_append] at hbytes
    rw [List.flatten_append, ← hbytes, List.append_assoc] at hcut
    exact List.append_cancel_left hcut
  · rw [handshake, if_neg (by decide)]
    simp only [hread, hlossy, r.checkHead_text]
    cases r.verdict (computeAccept sha1 (base64Encode keyBytes)) <;> rfl

def sampleKey : List UInt8 :=
  [0x74, 0x68, 0x65, 0x20, 0x73, 0x61, 0x6d, 0x70, 0x6c, 0x65, 0x20, 0x6e, 0x6f, 0x6e, 0x63, 0x65]

/-- The digest of the key's text and `wsGuid`. -/
def sampleDigest : List UInt8 :=
  [0xb3, 0x7a, 0x4f, 0x2c, 0xc0, 0x62, 0x4f, 0x16, 0x90, 0xf6, 0x46, 0x06, 0xcf, 0x38, 0x59, 0x45,
   0xb2, 0xbe, 0xc4, 0xea]

def asciiText (bytes : List UInt8) : Text := bytes.map fun b => Char.ofNat b.toNat

def sampleResponse : Response where
  statusLine := "HTTP/1.1 101 OK".toList
  headers := ["upgrade: websocket".toList,
    "SEC-WebSocket-accept:  s3pPLMBiTxaQ9kYGzzhZRbK+xOo= ".toList]
  line_ok := by decide

private theorem sampleResponse_lossy : asciiText sampleResponse.bytes = sampleResponse.text := by
  decide

private theorem hello_payload_le : ([0x48, 0x69] : List UInt8).length ≤ maxFramePayload := by
  decide

/-- "Hi" as a text message in one frame. -/
private def helloFrame : WireFrame := encodedFrame opcodeText [0x48, 0x69] none hello_payload_le

end Connection

end DirtybirdMiner.Ws.Handshake
