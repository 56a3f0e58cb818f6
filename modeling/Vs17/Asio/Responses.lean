import Vs17.Asio.MsgDefine

/-! # Reply texts

The JSON texts the handlers answer with, by the command of the request, and the
processors that `getProcessor` tells apart by their tag.
-/

namespace Vs17.Asio

inductive Processor
  | conferenceDistributor
  | deviceManager
  | userManager
  | authManager
  | conferenceManager
  | upgradeManager
  | configManager
  deriving DecidableEq, Repr

namespace Processor

/-- The tag of the messages a processor handles. -/
def tag : Processor → ℕ
  | conferenceDistributor => 0x6012
  | deviceManager => 0x6020
  | userManager => 0x6021
  | authManager => 0x6022
  | conferenceManager => 0x6023
  | upgradeManager => 0x6024
  | configManager => 0x6025

end Processor

namespace Responses

/-- The bytes of a string literal, as the source file encodes it. -/
def utf8 (s : String) : Bytes := s.toUTF8.data.toList

def conferenceDistributor0600 : Bytes := utf8 <|
  "\x7b" ++
  "                    \"cmd\": 383963584," ++
  "                    \"token\": \"\"," ++
  "                    \"result\": 0," ++
  "                    \"uuid\": \"5021846b3db911eba1e2a4bf01303dd7\"," ++
  "                    \"description\": \"\"," ++
  "                    \"content\": \x7b" ++
  "                    \"dev_no\": \"00000-00000-00000-00000-00000\"," ++
  "                    \"devStatus\": 0," ++
  "                    \"meetingId\": \"5021846b3db911eba1e2a4bf01303dd7\"," ++
  "                    \"result\": 0," ++
  "                    \"globle_id\": \"00100-00321-00000-00296\"" ++
  "                    \x7d  \x7d"

def conferenceDistributor0601 : Bytes := utf8 <|
  "\x7b" ++
  "                    \"cmd\": 124," ++
  "                    \"token\": \"\"," ++
  "                    \"result\": 0," ++
  "                    \"uuid\": \"5021846b3db911eba1e2a4bf01303dd7\"," ++
  "                    \"description\": \"\"," ++
  "                    \"content\": \x7b" ++
  "                    \"dev_no\": \"00000-00000-00000-00000-00000\"," ++
  "                    \"devStatus\": 0," ++
  "                    \"meetingId\": \"5021846b3db911eba1e2a4bf01303dd7\"," ++
  "                    \"result\": 0," ++
  "                    \"globle_id\": \"00100-00321-00000-00296\"" ++
  "                    \x7d  \x7d"

def deviceManager101 : Bytes := utf8 <|
  "\x7b\"Msg\":\"\"," ++
  "                \"count\": 2, \"Data\" : [\x7b\"id\":\"1231324\", \"accloudid\" : \"2\"," ++
  " \"name\" : \"\", \"master\" : \"\ufffd\ufffd\ufffd\ufffd\ufffd\ufffd\ufffd\ufffd\ufffd" ++
  "\ufffd1\", \"sn\" : \"\", \"logicid\" : \"\", " ++
  "                \"soft\" : \"1.0\", \"level\" : \"\", \"numpre\" : \"22111\", \"logicpre" ++
  "\" : \"\", \"ippre\" : " ++
  ", \"ktz\" : \"\", \"ktywsj\" : \"\", \"sheng\" : " ++
  "                \"beijing\", \"shi\" : \"beijing\"\x7d]\x7d"

def deviceManager102 : Bytes := utf8 <|
  "\x7b\"Msg\":\"OK\"\x7d"

def userManager101 : Bytes := utf8 <|
  "\x7b \"access_token\": \"4e29de6b9c3511e9be51a4bf01303dd7\", \"data\" :   \x7b \"loginNa" ++
  "me\": \"bao\", \"name\" : \"\ufffd\ufffd\ufffd\ufffd\ufffd\ufffd\"," ++
  "            \"permission\" : \"1,1,1,1,1,0,0,0,0\"," ++
  "            \"phone\" : \"13599999999\"," ++
  "            \"role\" : \"\ufffd\ufffd\u022b\ufffd\ufffd\ufffd\u0739\ufffd\ufffd\ufffd" ++
  "\u0531\"," ++
  "            \"roleId\" : \"005020d2abc511e6802eb82a72db6d4d\"," ++
  "            \"userid\" : \"d783f15bd42411e8b8b5a4bf0134505a\"" ++
  "            " ++
  "            \x7d," ++
  "            \"ret\": 0," ++
  "            \"msg\" : \"\ufffd\ufffd\u00bc\ufffd\u0279\ufffd\"\x7d"

def userManager121 : Bytes := utf8 <|
  "\x7b" ++
  "                \"ret\":0," ++
  "                \"msg\" : \"\ufffd\u00fb\ufffd\ufffd\u02f3\ufffd\ufffd\u0279\ufffd\"," ++
  "                \x7d  "

def authManager1 : Bytes := utf8 <|
  "\x7b" ++
  "            \"msg\": \"\"," ++
  "            \"result\": 0," ++
  "            \"data\":[\x7b" ++
  "            \"time\": \"2020-12-21 14:52:11\"," ++
  "            \"moudle_type\": \"1\"," ++
  "            \"user_id\": \" shenjiyuan\"," ++
  "            \"event_type\": \"101\",\t" ++
  "            \"object_id\": \"zhangsan\"," ++
  "            \"object_type\": \"user\"," ++
  "            \"content\": \"\"" ++
  "    \x7d, \x7b\x7d] \x7d "

def authManager2 : Bytes := utf8 <|
  "\x7b" ++
  "            \"msg\": \"\"," ++
  "            \"result\": 0," ++
  "            \"data\":[\x7b" ++
  "            \"time\": \"2020-12-21 14:52:11\"," ++
  "            \"moudle_type\": \"1\"," ++
  "            \"user_id\": \" shenjiyuan\"," ++
  "            \"event_type\": \"101\",\t" ++
  "            \"object_id\": \"zhangsan\"," ++
  "            \"object_type\": \"user\"," ++
  "            \"content\": \"\"\x7d, \x7b\x7d]\x7d "

def conferenceManager601 : Bytes := utf8 <|
  "\x7b\"Msg\":\"\"\x7d"

def conferenceManager602 : Bytes := utf8 <|
  "\x7b\"Msg\":\"\"\x7d"

def upgradeManager703 : Bytes := utf8 <|
  "\x7b\"ret\":\"\",\"Msg\":\"\"\x7d"

def upgradeManager704 : Bytes := utf8 <|
  "\x7b\"list\":[\x7b\"file_name\":\"\"," ++
  "                \"product\":\"\"," ++
  "                \"version\":\"\"," ++
  "                \"datetime\":\"\"\x7d],\"Msg\":\"\"\x7d"

def configManager101 : Bytes := utf8 <|
  "\x7b\"ret\":\"\",\"Msg\":\"\"\x7d"

end Responses

/-- The response text a handler chooses for a command, empty where it has none. -/
def Processor.response : Processor → ℕ → Bytes
  | .conferenceDistributor, 0x0600 => Responses.conferenceDistributor0600
  | .conferenceDistributor, 0x0601 => Responses.conferenceDistributor0601
  | .deviceManager, 101 => Responses.deviceManager101
  | .deviceManager, 102 => Responses.deviceManager102
  | .userManager, 101 => Responses.userManager101
  | .userManager, 121 => Responses.userManager121
  | .authManager, 1 => Responses.authManager1
  | .authManager, 2 => Responses.authManager2
  | .conferenceManager, 601 => Responses.conferenceManager601
  | .conferenceManager, 602 => Responses.conferenceManager602
  | .upgradeManager, 703 => Responses.upgradeManager703
  | .upgradeManager, 704 => Responses.upgradeManager704
  | .configManager, 101 => Responses.configManager101
  | _, _ => []

theorem Processor.length_response_le (p : Processor) (cmd : ℕ) :
    (p.response cmd).length ≤ 514 := by
  unfold Processor.response
  split <;> decide +kernel

end Vs17.Asio
