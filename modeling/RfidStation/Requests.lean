import RfidStation.ConfigFile
import RfidStation.ReturnValue

/-! The request that cloud_send puts together (common.c, http.c), against the whole one: both
are written by snprintf with MAX_HEADERS_LENGTH bytes beside the text they carry. -/
namespace RfidStation.Requests
open Cstr Config ConfigFile HttpPost HttpRequest ReturnValue

structure Value (text : Bytes) : Prop where
  short : text.length ≤ 99
  graphic : ∀ c ∈ text, isgraph c = true

structure Values (conf : Conf) (path : Bytes) : Prop where
  path : Value path
  host : Value (getConfig conf (ascii "cloud.remote_host"))
  agent : Value (getConfig conf (ascii "http.user_agent"))
  token : Value (getConfig conf (ascii "cloud.access_token"))

-- `len` of cloud_send is an int; no memory is got for a size beyond it.
def cloudTcp (conf : Conf) (path buf : Bytes) : Option Bytes :=
  if (urlencode buf).length + maxHeadersLength < 2147483648 then
    some (snprintf ((cloudBody conf buf).length + maxHeadersLength) (cloudRequest conf path buf))
  else none

def crlf : Bytes := ascii "\r\n"

def wholeBody (conf : Conf) (buf : Bytes) : Bytes :=
  ascii "token=" ++ getConfig conf (ascii "cloud.access_token") ++ ascii "&data=" ++ urlencode buf

def headerLines (conf : Conf) (path : Bytes) (length : Nat) : List Bytes := [
  ascii "POST " ++ path ++ ascii " HTTP/1.1",
  ascii "Host: " ++ getConfig conf (ascii "cloud.remote_host"),
  ascii "User-Agent: " ++ getConfig conf (ascii "http.user_agent"),
  ascii "Connection: close",
  ascii "Content-Length: " ++ ascii (toString length),
  ascii "Content-Type: application/x-www-form-urlencoded"]

def ended (lines : List Bytes) : Bytes := lines.flatMap (fun line => line ++ crlf)

structure Complete (conf : Conf) (path buf text : Bytes) : Prop where
  whole : text = ended (headerLines conf path (wholeBody conf buf).length) ++ crlf ++ wholeBody conf buf
  behind : (bodyOf text).length = (wholeBody conf buf).length

def encodedLength (buf : Bytes) : Nat := (buf.map (fun c => if unreserved c then 1 else 3)).sum

def bodyLength (conf : Conf) (buf : Bytes) : Nat :=
  12 + (getConfig conf (ascii "cloud.access_token")).length + encodedLength buf

/-- The message is short enough for an int, and the request line's path, the two other values
of the headers and the decimal length have at most 173 characters together. -/
def Fits (conf : Conf) (path buf : Bytes) : Prop :=
  encodedLength buf + maxHeadersLength < 2147483648 ∧
  path.length + (getConfig conf (ascii "cloud.remote_host")).length +
    (getConfig conf (ascii "http.user_agent")).length +
    (ascii (toString (bodyLength conf buf))).length ≤ 173

instance (conf : Conf) (path buf : Bytes) : Decidable (Fits conf path buf) :=
  inferInstanceAs (Decidable (_ ∧ _))

instance (text : Bytes) : Decidable (Value text) :=
  decidable_of_iff (text.length ≤ 99 ∧ text.all isgraph = true)
    ⟨fun h => ⟨h.1,List.all_eq_true.mp h.2⟩,fun h => ⟨h.1,List.all_eq_true.mpr h.2⟩⟩

theorem snprintfWhole {size : Nat} {text : Bytes} (room : 0 < size) :
    snprintf size text = text ↔ text.length < size := by
  rw [snprintf,List.take_eq_self_iff]
  omega

theorem bodyWhole {conf : Conf} {path : Bytes} (values : Values conf path) (buf : Bytes) :
    cloudBody conf buf = wholeBody conf buf := by
  have token := values.token.short
  have names : (ascii "token=").length = 6 ∧ (ascii "&data=").length = 6 := by decide
  refine (snprintfWhole (by unfold maxHeadersLength; omega)).mpr ?_
  simp only [List.length_append,names]
  unfold maxHeadersLength
  omega

theorem urlencodeLength (buf : Bytes) : (urlencode buf).length = encodedLength buf := by
  rw [urlencode,encodedLength,List.length_flatMap]
  refine congrArg (fun sizes => (buf.map sizes).sum) (funext fun c => ?_)
  split <;> rfl

theorem wholeBodyLength (conf : Conf) (buf : Bytes) : (wholeBody conf buf).length = bodyLength conf buf := by
  have names : (ascii "token=").length = 6 ∧ (ascii "&data=").length = 6 := by decide
  simp only [wholeBody,bodyLength,List.length_append,names,urlencodeLength]
  omega

theorem printSmall {n : Nat} (small : n < 2147483648) : printInt n = ascii (toString n) := by
  have same : (BitVec.ofNat 32 n).toInt = (n : Int) := by
    rw [BitVec.toInt_ofNat']
    exact Int.bmod_eq_of_le (by omega) (by omega)
  rw [printInt,same]
  rfl

theorem requestLines (conf : Conf) (path body : Bytes) (small : body.length < 2147483648) :
    requestText conf (getConfig conf (ascii "cloud.remote_host")) path body body.length =
      ended (headerLines conf path body.length) ++ crlf ++ body := by
  have first : ascii " HTTP/1.1\r\nHost: " = ascii " HTTP/1.1" ++ (crlf ++ ascii "Host: ") := by decide
  have second : ascii "\r\nUser-Agent: " = crlf ++ ascii "User-Agent: " := by decide
  have third : ascii "\r\nConnection: close\r\nContent-Length: " =
      crlf ++ (ascii "Connection: close" ++ (crlf ++ ascii "Content-Length: ")) := by decide
  have last : ascii "\r\nContent-Type: application/x-www-form-urlencoded\r\n\r\n" =
      crlf ++ (ascii "Content-Type: application/x-www-form-urlencoded" ++ (crlf ++ crlf)) := by decide
  rw [requestText,first,second,third,last,printSmall small]
  simp only [ended,headerLines,List.flatMap_cons,List.flatMap_nil,List.append_assoc,List.append_nil]

theorem endedLength (conf : Conf) (path : Bytes) (length : Nat) :
    (ended (headerLines conf path length) ++ crlf).length = 126 + (path.length +
      (getConfig conf (ascii "cloud.remote_host")).length +
      (getConfig conf (ascii "http.user_agent")).length + (ascii (toString length)).length) := by
  have texts : (ascii "POST ").length = 5 ∧ (ascii " HTTP/1.1").length = 9 ∧
      (ascii "Host: ").length = 6 ∧ (ascii "User-Agent: ").length = 12 ∧
      (ascii "Connection: close").length = 17 ∧ (ascii "Content-Length: ").length = 16 ∧
      (ascii "Content-Type: application/x-www-form-urlencoded").length = 47 ∧ crlf.length = 2 := by
    decide
  simp only [ended,headerLines,List.flatMap_cons,List.flatMap_nil,List.append_nil,
    List.length_append,texts]
  omega

theorem bodySkip (b : UInt8) (rest : Bytes) (other : ¬ blankLine <+: b :: rest) :
    bodyOf (b :: rest) = bodyOf rest :=
  if_neg (fun starts => other (List.isPrefixOf_iff_prefix.mp starts))

theorem bodyLine {line : Bytes} (inLine : 13 ∉ line) (rest : Bytes) :
    bodyOf (line ++ rest) = bodyOf rest := by
  induction line with
  | nil => rfl
  | cons b line ih =>
    obtain ⟨other,later⟩ := List.ne_and_not_mem_of_not_mem_cons inLine
    refine (bodySkip b _ fun starts => ?_).trans (ih later)
    exact other (List.cons_prefix_cons.mp starts).1

theorem bodyCrlf {c : UInt8} {rest : Bytes} (other : c ≠ 13) :
    bodyOf (crlf ++ c :: rest) = bodyOf (c :: rest) := by
  refine (bodySkip 13 (10 :: c :: rest) fun starts => ?_).trans
    (bodySkip 10 (c :: rest) fun starts => ?_)
  · have inner := (List.cons_prefix_cons.mp (List.cons_prefix_cons.mp starts).2).2
    exact other (List.cons_prefix_cons.mp inner).1.symm
  · exact absurd (List.cons_prefix_cons.mp starts).1 (by decide)

theorem bodyEnded {lines : List Bytes} (some_line : lines ≠ [])
    (inLines : ∀ line ∈ lines, line ≠ [] ∧ 13 ∉ line) (body : Bytes) :
    bodyOf (ended lines ++ crlf ++ body) = body := by
  induction lines with
  | nil => contradiction
  | cons line rest ih =>
    obtain ⟨⟨-,inLine⟩,later⟩ := List.forall_mem_cons.mp inLines
    rw [ended,List.flatMap_cons,List.append_assoc,List.append_assoc,List.append_assoc,bodyLine inLine]
    cases rest with
    | nil => exact if_pos rfl
    | cons next more =>
      obtain ⟨some_char,inNext⟩ := later next List.mem_cons_self
      obtain ⟨c,text,rfl⟩ := List.exists_cons_of_ne_nil some_char
      have other : c ≠ 13 := fun same => inNext (same ▸ List.mem_cons_self)
      have rest := ih (List.cons_ne_nil _ _) later
      simp only [ended,List.flatMap_cons,List.cons_append,List.append_assoc] at rest ⊢
      exact (bodyCrlf other).trans rest

theorem valueLine {text : Bytes} (value : Value text) : 13 ∉ text :=
  fun mem => absurd (value.graphic 13 mem) (by decide)

theorem decimalLine (n : Nat) : 13 ∉ ascii (toString n) := by
  intro mem
  obtain ⟨c,digit,same⟩ := List.mem_map.mp mem
  have inside : c ∈ Nat.toDigits 10 n := by
    rw [← Nat.toList_repr]
    exact digit
  have isDigit := Nat.isDigit_of_mem_toDigits (by decide) (by decide) inside
  simp only [Char.isDigit,Bool.and_eq_true,decide_eq_true_eq,UInt32.le_iff_toNat_le] at isDigit
  have code := congrArg UInt8.toNat same
  simp only [UInt8.toNat_ofNat'] at code
  have low : 48 ≤ c.toNat := isDigit.1
  have high : c.toNat ≤ 57 := isDigit.2
  rw [Nat.mod_eq_of_lt (by omega)] at code
  have cr : (13 : UInt8).toNat = 13 := rfl
  omega

theorem headerLinesPlain {conf : Conf} {path : Bytes} (values : Values conf path) (length : Nat) :
    ∀ line ∈ headerLines conf path length, line ≠ [] ∧ 13 ∉ line := by
  have texts : 13 ∉ ascii "POST " ∧ 13 ∉ ascii " HTTP/1.1" ∧ 13 ∉ ascii "Host: " ∧
      13 ∉ ascii "User-Agent: " ∧ 13 ∉ ascii "Connection: close" ∧ 13 ∉ ascii "Content-Length: " ∧
      13 ∉ ascii "Content-Type: application/x-www-form-urlencoded" := by decide
  have named {name : Bytes} (text : Bytes) (some_char : name ≠ []) : name ++ text ≠ [] :=
    fun none => some_char (List.append_eq_nil_iff.mp none).1
  intro line mem
  simp only [headerLines,List.mem_cons,List.not_mem_nil,or_false] at mem
  rcases mem with rfl | rfl | rfl | rfl | rfl | rfl
  · refine ⟨named _ (named _ (by decide)),?_⟩
    simp only [List.mem_append,texts,valueLine values.path,or_self,not_false_eq_true]
  · refine ⟨named _ (by decide),?_⟩
    simp only [List.mem_append,texts,valueLine values.host,or_self,not_false_eq_true]
  · refine ⟨named _ (by decide),?_⟩
    simp only [List.mem_append,texts,valueLine values.agent,or_self,not_false_eq_true]
  · exact ⟨by decide,texts.2.2.2.2.1⟩
  · refine ⟨named _ (by decide),?_⟩
    simp only [List.mem_append,texts,decimalLine,or_self,not_false_eq_true]
  · exact ⟨by decide,texts.2.2.2.2.2.2⟩

theorem wholeBehind {conf : Conf} {path : Bytes} (values : Values conf path) (body : Bytes) (n : Nat) :
    bodyOf (ended (headerLines conf path n) ++ crlf ++ body) = body :=
  bodyEnded (List.cons_ne_nil _ _) (headerLinesPlain values n) body

theorem cloudTcpCut {conf : Conf} {path buf : Bytes} (values : Values conf path)
    (small : (urlencode buf).length + maxHeadersLength < 2147483648) :
    cloudTcp conf path buf = some (snprintf ((wholeBody conf buf).length + maxHeadersLength)
      (ended (headerLines conf path (wholeBody conf buf).length) ++ crlf ++ wholeBody conf buf)) := by
  have token := values.token.short
  have body : (wholeBody conf buf).length < 2147483648 := by
    rw [wholeBodyLength,bodyLength,← urlencodeLength]
    unfold maxHeadersLength at small
    omega
  rw [cloudTcp,if_pos small,cloudRequest]
  simp only [bodyWhole values]
  rw [requestLines conf path _ body]

theorem completeFits {conf : Conf} {path buf : Bytes} (values : Values conf path) :
    (∃ text, cloudTcp conf path buf = some text ∧ Complete conf path buf text) ↔
      Fits conf path buf := by
  have size : (ended (headerLines conf path (wholeBody conf buf).length) ++ crlf ++
      wholeBody conf buf).length < (wholeBody conf buf).length + maxHeadersLength ↔
      path.length + (getConfig conf (ascii "cloud.remote_host")).length +
        (getConfig conf (ascii "http.user_agent")).length +
        (ascii (toString (bodyLength conf buf))).length ≤ 173 := by
    rw [List.length_append,endedLength,wholeBodyLength]
    unfold maxHeadersLength
    omega
  have room : 0 < (wholeBody conf buf).length + maxHeadersLength := Nat.lt_add_left _ (by decide)
  rw [Fits,← urlencodeLength]
  constructor
  · rintro ⟨text,built,complete⟩
    have small : (urlencode buf).length + maxHeadersLength < 2147483648 := by
      by_contra large
      rw [cloudTcp,if_neg large] at built
      cases built
    rw [cloudTcpCut values small] at built
    have same := (Option.some.inj built).trans complete.whole
    exact ⟨small,size.mp ((snprintfWhole room).mp same)⟩
  · rintro ⟨small,fits⟩
    have same := (snprintfWhole room).mpr (size.mpr fits)
    refine ⟨_,cloudTcpCut values small,same,?_⟩
    rw [same,wholeBehind values]

/-- The body is the whole of token and message. The request is complete exactly if the values
in its headers leave room for them. -/
theorem completeIffFits (conf : Conf) (path buf : Bytes) (values : Values conf path) :
    cloudBody conf buf = wholeBody conf buf ∧
    ((∃ text, cloudTcp conf path buf = some text ∧ Complete conf path buf text) ↔
      Fits conf path buf) :=
  ⟨bodyWhole values buf,completeFits values⟩

def named (host agent : Bytes) : Conf :=
  [(ascii "cloud.remote_host",host),(ascii "http.user_agent",agent),(ascii "cloud.access_token",ascii "t")]

theorem completeIffFitsShort :
    ∃ text, cloudTcp (named (ascii "h.org") (ascii "rfid")) (ascii "/up") [38] = some text ∧
      Complete (named (ascii "h.org") (ascii "rfid")) (ascii "/up") [38] text :=
  (completeIffFits (named (ascii "h.org") (ascii "rfid")) (ascii "/up") [38]
    ⟨by decide,by decide,by decide,by decide⟩).2.mpr (by decide)

theorem longNamesCut : ¬ ∀ conf path buf, Values conf path →
    ∃ text, cloudTcp conf path buf = some text ∧ Complete conf path buf text := by
  intro claim
  have values : Values (named (List.replicate 99 97) (List.replicate 99 97)) (ascii "/up") :=
    ⟨by decide,by decide,by decide,by decide⟩
  exact absurd ((completeFits values).mp (claim _ _ [] values)) (by decide)

end RfidStation.Requests
