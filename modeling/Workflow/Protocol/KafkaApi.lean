/-
Module: Workflow.Protocol.KafkaApi
Layer: Protocol
Purpose: Which version of a Kafka API a broker and the client have in common (kafka_parser.c). `short`
  is `Int16` and `int` is `Int32`.
Trusted boundary: human-reviewed model
Main exports: KafkaApiVersion, kafkaApiVersionKeyCmp, kafkaBrokerGetApiVersion
-/
import Workflow.Lib.BinarySearch

namespace Workflow.Kafka

open Workflow.Lib

/-- `kafka_api_version_t`. -/
structure KafkaApiVersion where
  apiKey : Int16
  minVer : Int16
  maxVer : Int16

/-- `kafka_api_version_key_cmp`. -/
def kafkaApiVersionKeyCmp (a b : KafkaApiVersion) : Int :=
  if a.apiKey.toInt > b.apiKey.toInt then 1
  else if a.apiKey.toInt = b.apiKey.toInt then 0
  else -1

/-- `kafka_broker_get_api_version`. The key is stored in a `short`. -/
def kafkaBrokerGetApiVersion (api : List KafkaApiVersion) (apiKey minVer maxVer : Int32) : Int :=
  let sk : KafkaApiVersion := { apiKey := apiKey.toInt16, minVer := 0, maxVer := 0 }
  match bsearch (kafkaApiVersionKeyCmp sk) api with
  | none => -1
  | some retp =>
      if retp.maxVer.toInt < maxVer.toInt then
        if retp.maxVer.toInt < minVer.toInt then -1
        else retp.maxVer.toInt
      else if retp.minVer.toInt > minVer.toInt then -1
      else maxVer.toInt

end Workflow.Kafka
